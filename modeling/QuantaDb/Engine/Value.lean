import QuantaDb.Mvcc.State
import QuantaDb.Syntax.Ast

/-!
# QuantaDb.Engine.Value

Values, column types and what a column accepts (`value.rs`, `schema.rs`).

Floats are given by their bits.  There are two notions of equality: `=` on the
values as the model has them, and `Value.eq`, the `==` that the engine derives,
for which the two zeros are equal.
-/

namespace QuantaDb.Engine

open Syntax

/-- `EngineError`. -/
inductive EngineError where
  | transaction (error : Mvcc.TransactionError)
  | encoding (message : String)
  | syntaxError (message : String)
  | corruptRecord (reason : String)
  | tableAlreadyExists (name : String)
  | tableNotFound (name : String)
  | indexAlreadyExists (name : String)
  | indexNotFound (name : String)
  | invalidSchema (reason : String)
  | invalidRow (reason : String)
  | columnNotFound (name : String)
  | constraintViolation (reason : String)
  | expression (reason : String)
  | unsupported (feature : String)
  | transactionAlreadyActive
  | noActiveTransaction
  | transactionAborted
deriving DecidableEq, Repr

/-! ## values -/

/-- `Value`. -/
inductive Value where
  | null
  | boolean (value : Bool)
  | integer (value : Int64)
  | float (value : Binary64)
  | text (value : String)
deriving DecidableEq, Repr

namespace Value

/-- `Value::is_null`. -/
def isNull : Value → Bool
  | null => true
  | _ => false

/-- `==` on `Value`. -/
def eq : Value → Value → Bool
  | null, null => true
  | boolean left, boolean right => left == right
  | integer left, integer right => left == right
  | float left, float right => left.eq right
  | text left, text right => left == right
  | _, _ => false

end Value

/-! ## columns -/

/-- `LogicalType`. -/
inductive LogicalType where
  | unknown
  | boolean
  | int64
  | float64
  | text (maxLength : Option UInt32)
deriving DecidableEq, Repr

/-- `ColumnSchema`. -/
structure ColumnSchema where
  name : String
  dataType : LogicalType
  nullable : Bool
  primaryKey : Bool
  unique : Bool
deriving DecidableEq, Repr

/-- The type of a value is the type of a column. -/
def LogicalType.admits : LogicalType → Value → Bool
  | unknown, _ => true
  | boolean, .boolean _ => true
  | int64, .integer _ => true
  | float64, .float _ => true
  | text _, .text _ => true
  | _, _ => false

/-- The text is longer than the column. -/
def LogicalType.overLong : LogicalType → Value → Option UInt32
  | text (some maximum), .text value => if maximum.toNat < value.length then some maximum else none
  | _, _ => none

/-- A float that is not a number of its own. -/
def Value.isNonFinite : Value → Bool
  | .float number => !number.isFinite
  | _ => false

namespace ColumnSchema

/-- `ColumnSchema::validate`. -/
def validate (column : ColumnSchema) (value : Value) : Except EngineError Unit :=
  if value.isNull then
    if column.nullable then .ok ()
    else .error (.invalidRow s!"column {column.name} cannot be NULL")
  else if !column.dataType.admits value then
    .error (.invalidRow s!"value has the wrong type for column {column.name}")
  else
    match column.dataType.overLong value with
    | some maximum =>
      .error (.invalidRow s!"value for column {column.name} exceeds {maximum} characters")
    | none =>
      if value.isNonFinite then
        .error (.invalidRow s!"column {column.name} cannot contain a non-finite float")
      else .ok ()

/-- What a column accepts. -/
theorem validate_ok {column : ColumnSchema} {value : Value} :
    column.validate value = .ok () ↔
      (value.isNull = true ∧ column.nullable = true) ∨
      (value.isNull = false ∧ column.dataType.admits value = true ∧
        column.dataType.overLong value = none ∧ value.isNonFinite = false) := by
  unfold validate
  cases value.isNull with
  | true => simp
  | false =>
    cases column.dataType.admits value with
    | false => simp
    | true =>
      cases column.dataType.overLong value with
      | some maximum => simp
      | none => cases value.isNonFinite <;> simp

/-- `ColumnSchema::from_definition`. -/
def fromDefinition (column : ColumnDef) : ColumnSchema where
  name := column.name.value
  dataType :=
    match column.dataType with
    | .boolean => .boolean
    | .int64 => .int64
    | .float64 => .float64
    | .text maxLength => .text maxLength
  nullable := column.nullable
  primaryKey := column.primaryKey
  unique := column.unique

end ColumnSchema

/-! ## tables -/

def schemaFormatVersion : UInt16 := 1

/-- `TableSchema`. -/
structure TableSchema where
  formatVersion : UInt16
  id : UInt64
  name : String
  columns : List ColumnSchema
  primaryKey : Option Nat
  nextRowId : UInt64
deriving DecidableEq, Repr

/-- `IndexSchema`. -/
structure IndexSchema where
  formatVersion : UInt16
  id : UInt64
  name : String
  tableId : UInt64
  columns : List Nat
  unique : Bool
deriving DecidableEq, Repr

namespace TableSchema

/-- Where the columns marked as primary key are. -/
def primaryKeys (columns : List ColumnSchema) : List Nat :=
  (List.range columns.length).filter fun position =>
    columns[position]?.any fun column => column.primaryKey

/-- `TableSchema::from_create`. -/
def fromCreate (id : UInt64) (create : CreateTable) : Except EngineError TableSchema :=
  let columns := create.columns.map ColumnSchema.fromDefinition
  let primaryKeys := primaryKeys columns
  if 1 < primaryKeys.length then
    .error (.invalidSchema "only one PRIMARY KEY is currently supported")
  else if ¬(columns.map ColumnSchema.name).Nodup then
    .error (.invalidSchema "column names must be unique")
  else .ok {
    formatVersion := schemaFormatVersion
    id
    name := create.name.value
    columns
    primaryKey := primaryKeys.head?
    nextRowId := 1 }

/-- `TableSchema::validate_row`. -/
def validateRow (schema : TableSchema) (values : List Value) : Except EngineError Unit :=
  if values.length ≠ schema.columns.length then
    .error (.invalidRow
      s!"table {schema.name} expects {schema.columns.length} values, got {values.length}")
  else (schema.columns.zip values).forM fun entry => entry.1.validate entry.2

/-- The column of a name, as `position` finds it. -/
def position (schema : TableSchema) (name : String) : Option Nat :=
  schema.columns.findIdx? fun column => column.name == name

end TableSchema

end QuantaDb.Engine
