import QuantaDb.Lib.Binary64

/-!
# QuantaDb.Syntax.Ast

Statements and expressions as the parser returns them (`ast.rs`).  The byte spans
that every node carries for error messages are left out.
-/

namespace QuantaDb.Syntax

/-- `Identifier`. -/
structure Identifier where
  value : String
  quoted : Bool
deriving DecidableEq, Repr

/-- `DataType`. -/
inductive DataType where
  | boolean
  | int64
  | float64
  | text (maxLength : Option UInt32)
deriving DecidableEq, Repr

/-- `Literal`. -/
inductive Literal where
  | null
  | boolean (value : Bool)
  | integer (value : Int64)
  | float (value : Binary64)
  | string (value : String)
deriving DecidableEq, Repr

/-- `UnaryOperator`. -/
inductive UnaryOperator where
  | not
  | plus
  | minus
deriving DecidableEq, Repr

/-- `BinaryOperator`. -/
inductive BinaryOperator where
  | or
  | and
  | equal
  | notEqual
  | lessThan
  | lessThanOrEqual
  | greaterThan
  | greaterThanOrEqual
  | add
  | subtract
  | multiply
  | divide
  | modulo
deriving DecidableEq, Repr

/-- `Expr`. -/
inductive Expr where
  | identifier (identifier : Identifier)
  | literal (value : Literal)
  | unary (operator : UnaryOperator) (expression : Expr)
  | binary (left : Expr) (operator : BinaryOperator) (right : Expr)
  | isNull (expression : Expr) (negated : Bool)
  | parenthesized (expression : Expr)
deriving DecidableEq, Repr

/-- `ColumnDef`. -/
structure ColumnDef where
  name : Identifier
  dataType : DataType
  nullable : Bool
  primaryKey : Bool
  unique : Bool
deriving DecidableEq, Repr

/-- `CreateTable`. -/
structure CreateTable where
  name : Identifier
  ifNotExists : Bool
  columns : List ColumnDef
deriving DecidableEq, Repr

/-- `DropTable`. -/
structure DropTable where
  name : Identifier
  ifExists : Bool
deriving DecidableEq, Repr

/-- `CreateIndex`. -/
structure CreateIndex where
  name : Identifier
  table : Identifier
  columns : List Identifier
  unique : Bool
  ifNotExists : Bool
deriving DecidableEq, Repr

/-- `DropIndex`. -/
structure DropIndex where
  name : Identifier
  ifExists : Bool
deriving DecidableEq, Repr

/-- `Insert`. -/
structure Insert where
  table : Identifier
  columns : List Identifier
  rows : List (List Expr)
deriving DecidableEq, Repr

/-- `OrderKey`. -/
structure OrderKey where
  expression : Expr
  descending : Bool
deriving DecidableEq, Repr

/-- `SelectItem`. -/
inductive SelectItem where
  | wildcard
  | expression (expression : Expr) (alias_ : Option Identifier)
deriving DecidableEq, Repr

/-- `Select`. -/
structure Select where
  projection : List SelectItem
  from_ : Identifier
  selection : Option Expr
  orderBy : List OrderKey
  limit : Option UInt64
deriving DecidableEq, Repr

/-- `Assignment`. -/
structure Assignment where
  column : Identifier
  value : Expr
deriving DecidableEq, Repr

/-- `Update`. -/
structure Update where
  table : Identifier
  assignments : List Assignment
  selection : Option Expr
deriving DecidableEq, Repr

/-- `Delete`. -/
structure Delete where
  table : Identifier
  selection : Option Expr
deriving DecidableEq, Repr

/-- `Statement`. -/
inductive Statement where
  | createTable (create : CreateTable)
  | createIndex (create : CreateIndex)
  | dropTable (drop : DropTable)
  | dropIndex (drop : DropIndex)
  | beginTransaction
  | commit
  | rollback
  | insert (insert : Insert)
  | select (select : Select)
  | update (update : Update)
  | delete (delete : Delete)
deriving DecidableEq, Repr

end QuantaDb.Syntax
