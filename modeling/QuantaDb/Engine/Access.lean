import QuantaDb.Engine.Transaction

/-!
# QuantaDb.Engine.Access

How a statement finds its rows (`access.rs` and `read_rows`): by scanning the table,
by one row key, or through the entries of a secondary index.
-/

namespace QuantaDb.Engine

open Syntax

/-- `coerce`: an integer for a float column becomes a float. -/
def coerce (ops : FloatOps) (value : Value) (dataType : LogicalType) : Value :=
  match value, dataType with
  | .integer value, .float64 => .float (ops.ofInt value)
  | value, _ => value

/-- `AccessPath`. -/
inductive AccessPath where
  | scan
  | point (key : Option Bytes)
  | indexPrefix (start : Bytes)
deriving DecidableEq, Repr

namespace Access

/-- `is_constant`. -/
def isConstant : Expr → Bool
  | .identifier _ => false
  | .literal _ => true
  | .unary _ expression => isConstant expression
  | .isNull expression _ => isConstant expression
  | .parenthesized expression => isConstant expression
  | .binary left _ right => isConstant left && isConstant right

/-- A column and a constant, in this order. -/
def columnAndConstant : Expr → Expr → Option (String × Expr)
  | .identifier identifier, constant =>
    if isConstant constant then some (identifier.value, constant) else none
  | _, _ => none

/-- `equality_column_and_constant`. -/
def equalityColumnAndConstant : Expr → Option (String × Expr)
  | .binary left .equal right =>
    (columnAndConstant left right).or (columnAndConstant right left)
  | _ => none

end Access

open Access

/-- The column of a name, with its position. -/
def TableSchema.find (schema : TableSchema) (name : String) : Option (Nat × ColumnSchema) :=
  (schema.position name).bind fun position =>
    schema.columns[position]?.map fun column => (position, column)

/-- A row of NULLs, on which constants are evaluated. -/
def TableSchema.nulls (schema : TableSchema) : List Value :=
  List.replicate schema.columns.length .null

/-- `plan` where a secondary index may serve the equality. -/
def planIndex (p : Platform) (t : Transaction) (schema : TableSchema) (position : Nat)
    (value : Value) :
    Except EngineError AccessPath := do
  let indexes ← loadTableIndexes p t schema.id
  match indexes.find? fun index => index.columns.head? == some position with
  | none => .ok .scan
  | some index => do
      let start ← indexValuePrefix index.id [value]
      if index.unique && index.columns.length == 1 then
        return .point (t.get start)
      else return .indexPrefix start

/-- `plan` for the column and the constant that it is compared with. -/
def planColumn (p : Platform) (t : Transaction) (schema : TableSchema) (position : Nat)
    (column : ColumnSchema) (expression : Expr) : Except EngineError AccessPath := do
  let value ← Expression.evaluate p.floats schema schema.nulls expression
  if value.isNull then return .point none
  else
    let value := coerce p.floats value column.dataType
    column.validate value
    if column.primaryKey then
      let identity ← encodeIdentity value
      let key ← rowKey schema.id identity
      return .point (some key)
    else if column.unique then
      let key ← uniqueKey schema.id position value
      return .point (t.get key)
    else planIndex p t schema position value

/-- `plan`. -/
def plan (p : Platform) (t : Transaction) (schema : TableSchema) (selection : Option Expr) :
    Except EngineError AccessPath :=
  match selection.bind equalityColumnAndConstant with
  | none => .ok .scan
  | some (name, expression) =>
    match schema.find name with
    | none => .error (.columnNotFound name)
    | some (position, column) => planColumn p t schema position column expression

/-- A row with its key. -/
def keyedRow (p : Platform) (entry : Bytes × Bytes) : Except EngineError (Bytes × List Value) := do
  let row ← decodeRow p entry.2
  return (entry.1, row)

/-- The row that an index entry points to. -/
def pointedRow (p : Platform) (t : Transaction) (key : Bytes) :
    Except EngineError (Bytes × List Value) :=
  match t.get key with
  | none => .error (.corruptRecord "index entry points to a missing row")
  | some bytes => keyedRow p (key, bytes)

/-- The rows on an access path. -/
def followPath (p : Platform) (t : Transaction) (schema : TableSchema) :
    AccessPath → Except EngineError (List (Bytes × List Value))
  | .scan => (t.scanPrefix (rowPrefix schema.id)).mapM (keyedRow p)
  | .point none => .ok []
  | .point (some key) =>
    match t.get key with
    | none => .ok []
    | some bytes => do
        let row ← keyedRow p (key, bytes)
        return [row]
  | .indexPrefix start => (t.scanPrefix start).mapM fun entry => pointedRow p t entry.2

/-- `read_rows`. -/
def readRows (p : Platform) (t : Transaction) (schema : TableSchema) (selection : Option Expr) :
    Except EngineError (List (Bytes × List Value)) := do
  let path ← plan p t schema selection
  followPath p t schema path

end QuantaDb.Engine
