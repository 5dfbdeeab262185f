import QuantaDb.Syntax.Ast
import QuantaDb.Syntax.Token

/-!
# QuantaDb.Syntax.Spanned

Statements and expressions with the spans of the text that they come from, as the
parser returns them (`ast.rs`).  `erase` forgets the spans; what the engine does with a
statement does not depend on them.
-/

namespace QuantaDb.Syntax.Spanned

/-- `Identifier`. -/
structure Identifier where
  value : String
  quoted : Bool
  span : Span

def Identifier.erase (identifier : Identifier) : Syntax.Identifier :=
  ⟨identifier.value, identifier.quoted⟩

/-! ## expressions -/

/-- `Expr`. -/
inductive Expr where
  | identifier (identifier : Identifier)
  | literal (value : Literal) (span : Span)
  | unary (operator : UnaryOperator) (expression : Expr) (span : Span)
  | binary (left : Expr) (operator : BinaryOperator) (right : Expr) (span : Span)
  | isNull (expression : Expr) (negated : Bool) (span : Span)
  | parenthesized (expression : Expr) (span : Span)

namespace Expr

/-- `Expr::span`. -/
def span : Expr → Span
  | .identifier name => name.span
  | .literal _ span => span
  | .unary _ _ span => span
  | .binary _ _ _ span => span
  | .isNull _ _ span => span
  | .parenthesized _ span => span

def erase : Expr → Syntax.Expr
  | .identifier name => .identifier name.erase
  | .literal value _ => .literal value
  | .unary operator expression _ => .unary operator expression.erase
  | .binary left operator right _ => .binary left.erase operator right.erase
  | .isNull expression negated _ => .isNull expression.erase negated
  | .parenthesized expression _ => .parenthesized expression.erase

end Expr

/-! ## statements -/

/-- `ColumnDef`. -/
structure ColumnDef where
  name : Identifier
  dataType : DataType
  nullable : Bool
  primaryKey : Bool
  unique : Bool
  span : Span

def ColumnDef.erase (column : ColumnDef) : Syntax.ColumnDef :=
  ⟨column.name.erase, column.dataType, column.nullable, column.primaryKey, column.unique⟩

/-- `CreateTable`. -/
structure CreateTable where
  name : Identifier
  ifNotExists : Bool
  columns : List ColumnDef
  span : Span

/-- `DropTable`. -/
structure DropTable where
  name : Identifier
  ifExists : Bool
  span : Span

/-- `CreateIndex`. -/
structure CreateIndex where
  name : Identifier
  table : Identifier
  columns : List Identifier
  unique : Bool
  ifNotExists : Bool
  span : Span

/-- `DropIndex`. -/
structure DropIndex where
  name : Identifier
  ifExists : Bool
  span : Span

/-- `Insert`. -/
structure Insert where
  table : Identifier
  columns : List Identifier
  rows : List (List Expr)
  span : Span

/-- `OrderKey`. -/
structure OrderKey where
  expression : Expr
  descending : Bool
  span : Span

def OrderKey.erase (key : OrderKey) : Syntax.OrderKey := ⟨key.expression.erase, key.descending⟩

/-- `SelectItem`. -/
inductive SelectItem where
  | wildcard (span : Span)
  | expression (expression : Expr) (alias_ : Option Identifier) (span : Span)

def SelectItem.erase : SelectItem → Syntax.SelectItem
  | .wildcard _ => .wildcard
  | .expression e name _ => .expression e.erase (name.map Identifier.erase)

/-- `Select`. -/
structure Select where
  projection : List SelectItem
  from_ : Identifier
  selection : Option Expr
  orderBy : List OrderKey
  limit : Option UInt64
  span : Span

/-- `Assignment`. -/
structure Assignment where
  column : Identifier
  value : Expr
  span : Span

def Assignment.erase (assignment : Assignment) : Syntax.Assignment :=
  ⟨assignment.column.erase, assignment.value.erase⟩

/-- `Update`. -/
structure Update where
  table : Identifier
  assignments : List Assignment
  selection : Option Expr
  span : Span

/-- `Delete`. -/
structure Delete where
  table : Identifier
  selection : Option Expr
  span : Span

/-- `Statement`. -/
inductive Statement where
  | createTable (create : CreateTable)
  | createIndex (create : CreateIndex)
  | dropTable (drop : DropTable)
  | dropIndex (drop : DropIndex)
  | beginTransaction (span : Span)
  | commit (span : Span)
  | rollback (span : Span)
  | insert (insert : Insert)
  | select (select : Select)
  | update (update : Update)
  | delete (delete : Delete)

namespace Statement

/-- `Statement::span`. -/
def span : Statement → Span
  | .createTable create => create.span
  | .createIndex create => create.span
  | .dropTable drop => drop.span
  | .dropIndex drop => drop.span
  | .beginTransaction span => span
  | .commit span => span
  | .rollback span => span
  | .insert statement => statement.span
  | .select statement => statement.span
  | .update statement => statement.span
  | .delete statement => statement.span

def erase : Statement → Syntax.Statement
  | .createTable create => .createTable
      ⟨create.name.erase, create.ifNotExists, create.columns.map ColumnDef.erase⟩
  | .createIndex create => .createIndex
      ⟨create.name.erase, create.table.erase, create.columns.map Identifier.erase, create.unique,
        create.ifNotExists⟩
  | .dropTable drop => .dropTable ⟨drop.name.erase, drop.ifExists⟩
  | .dropIndex drop => .dropIndex ⟨drop.name.erase, drop.ifExists⟩
  | .beginTransaction _ => .beginTransaction
  | .commit _ => .commit
  | .rollback _ => .rollback
  | .insert statement => .insert
      ⟨statement.table.erase, statement.columns.map Identifier.erase,
        statement.rows.map (List.map Expr.erase)⟩
  | .select statement => .select
      ⟨statement.projection.map SelectItem.erase, statement.from_.erase,
        statement.selection.map Expr.erase, statement.orderBy.map OrderKey.erase, statement.limit⟩
  | .update statement => .update
      ⟨statement.table.erase, statement.assignments.map Assignment.erase,
        statement.selection.map Expr.erase⟩
  | .delete statement => .delete ⟨statement.table.erase, statement.selection.map Expr.erase⟩

end Statement

end QuantaDb.Syntax.Spanned
