import QuantaDb.Lib.Parsing
import QuantaDb.Syntax.Precedence

/-!
# QuantaDb.Syntax.Grammar

The grammar of the language.

`Spells` says for each kind of node which tokens it is made of and that its span is
theirs: from the start of the first to the end of the last.  That what a parse function
returns spells the tokens that it consumed is proved in `Syntax.Sound` (expressions) and
`Syntax.StatementSound` (statements).
-/

namespace QuantaDb.Syntax

open Parsing

/-! ## spans of tokens -/

/-- The span from the first token to the last. -/
def spanOf (ts : List Token) : Span :=
  ⟨((ts.head?.map Token.span).map Span.start).getD 0,
    ((ts.getLast?.map Token.span).map Span.stop).getD 0⟩

/-- A span that ends with the last of the tokens. -/
def Ends (ts : List Token) (span : Span) : Prop := ts ≠ [] ∧ span.stop = (spanOf ts).stop

@[simp] theorem spanOf_singleton (t : Token) : spanOf [t] = t.span := rfl

theorem ends_singleton (t : Token) : Ends [t] t.span := ⟨by simp, rfl⟩

variable {ts : List Token}

theorem ends_spanOf (h : ts ≠ []) : Ends ts (spanOf ts) := ⟨h, rfl⟩

variable {v : List Token}

/-- What stands in front does not matter to the end. -/
theorem Ends.append {span : Span} (h : Ends v span) (u : List Token) :
    Ends (u ++ v) span := by
  refine ⟨by simp [h.1], ?_⟩
  rw [h.2, spanOf, spanOf]
  simp only [List.getLast?_append]
  cases hlast : v.getLast? with
  | none => exact absurd (List.getLast?_eq_none_iff.mp hlast) h.1
  | some t => rfl

theorem Ends.append_nil {span : Span} (h : Ends v span) : Ends (v ++ []) span := by
  rwa [List.append_nil]

variable {u : List Token}

/-- What stands behind does not matter to the start. -/
theorem spanOf_start_append (h : u ≠ []) (v : List Token) :
    (spanOf (u ++ v)).start = (spanOf u).start := by
  cases u with
  | nil => exact absurd rfl h
  | cons t u => rfl

/-- A span that is joined from where tokens start and where they end. -/
theorem join_eq_spanOf {first last : Span} (hu : u ≠ []) (hfirst : first = spanOf u)
    (hlast : Ends (u ++ v) last) :
    first.join last = spanOf (u ++ v) := by
  rw [hfirst]
  unfold Span.join
  rw [hlast.2, ← spanOf_start_append hu v]

/-- A clause that may be left out, and where a statement ends that ended at `stop`
before it. -/
theorem Ends.optional {α : Type} {item : α → List Token → Prop} {span : α → Span}
    (hitem : ∀ a ts, item a ts → Ends ts (span a)) {stop : Span} {a : Option α} (hu : Ends u stop)
    (ha : Optional item a v) : Ends (u ++ v) ((a.map span).getD stop) := by
  cases a with
  | none =>
    rw [show v = [] from ha, List.append_nil]
    exact hu
  | some a => exact (hitem a v ha).append u

/-- A list ends where its last item does. -/
theorem ends_sepBy {α : Type} {separator : List Token → Prop} {item : α → List Token → Prop}
    {span : α → Span} (hitem : ∀ a ts, item a ts → Ends ts (span a)) {as : List α}
    (h : SepBy separator item as ts) (other : Span) :
    Ends ts ((as.getLast?.map span).getD other) := by
  induction h with
  | one ha => exact hitem _ _ ha
  | @cons a as u v w _ _ has ih =>
    have hne := has.ne_nil
    rw [List.getLast?_cons_of_ne_nil hne]
    exact (ih.append v).append u

/-! ## words -/

/-- A token of a kind. -/
def Is (kind : TokenKind) (t : Token) (ts : List Token) : Prop := t.kind = kind ∧ ts = [t]

/-- One token of a kind. -/
def word (kind : TokenKind) (ts : List Token) : Prop := ∃ t, Is kind t ts

/-- One keyword. -/
abbrev key (keyword : Keyword) : List Token → Prop := word (.keyword keyword)

/-- Items with commas between them. -/
abbrev Commas {α : Type} : (α → List Token → Prop) → List α → List Token → Prop :=
  SepBy (word .comma)

variable {kind : TokenKind}

theorem Is.word {t : Token} (h : Is kind t ts) : word kind ts :=
  ⟨t, h⟩

theorem Is.ends {t : Token} (h : Is kind t ts) : Ends ts t.span := by
  rw [h.2]
  exact ends_singleton t

/-- What begins with a token. -/
theorem Is.join {t : Token} {last : Span} (h : Is kind t u) (hlast : Ends (u ++ v) last) :
    t.span.join last = spanOf (u ++ v) := by
  rw [h.2] at hlast ⊢
  exact join_eq_spanOf (by simp) rfl hlast

/-! ## expressions -/

namespace Spanned

/-- The token of an identifier. -/
def Identifier.Spells (name : Identifier) (ts : List Token) : Prop :=
  ∃ t, Is (.identifier name.value name.quoted) t ts ∧ name.span = t.span

variable {ts : List Token}

theorem Identifier.Spells.ends {name : Identifier} (h : name.Spells ts) :
    Ends ts name.span := by
  obtain ⟨t, ht, hspan⟩ := h
  rw [hspan]
  exact ht.ends

/-- The span of a name is that of its token. -/
theorem Identifier.Spells.span {name : Identifier} (h : name.Spells ts) :
    ts ≠ [] ∧ name.span = spanOf ts := by
  obtain ⟨t, ht, hspan⟩ := h
  rw [ht.2]
  exact ⟨by simp, hspan⟩

/-- The literal of a token. -/
def literalOf (ops : TextOps) : TokenKind → Option Literal
  | .string value => some (.string value)
  | .number raw => (Parser.numberLiteral ops raw).toOption
  | .keyword .null => some .null
  | .keyword .true => some (.boolean true)
  | .keyword .false => some (.boolean false)
  | _ => none

/-- The tokens of an expression. -/
inductive Expr.Spells (ops : TextOps) : Expr → List Token → Prop where
  | identifier {name : Identifier} {ts : List Token} : name.Spells ts →
      Spells ops (.identifier name) ts
  | literal {t : Token} {value : Literal} :
      literalOf ops t.kind = some value → Spells ops (.literal value t.span) [t]
  | unary {t : Token} {operator : UnaryOperator} {power : Nat} {e : Expr} {u : List Token} :
      Parser.unaryOperator t.kind = some (operator, power) → Spells ops e u →
      Spells ops (.unary operator e (spanOf ([t] ++ u))) ([t] ++ u)
  | binary {left right : Expr} {operator : BinaryOperator} {t : Token} {powers : Nat × Nat}
      {u v : List Token} :
      Spells ops left u → Parser.binaryOperator t.kind = some (operator, powers) →
      Spells ops right v →
      Spells ops (.binary left operator right (spanOf (u ++ ([t] ++ v)))) (u ++ ([t] ++ v))
  | isNull {e : Expr} {negated : Bool} {u v : List Token} :
      Spells ops e u → Seq [key .is, Flag [key .not] negated, key .null] v →
      Spells ops (.isNull e negated (spanOf (u ++ v))) (u ++ v)
  | parenthesized {e : Expr} {opening closing : Token} {u : List Token} :
      opening.kind = .leftParen → Spells ops e u → closing.kind = .rightParen →
      Spells ops (.parenthesized e (spanOf ([opening] ++ (u ++ [closing]))))
        ([opening] ++ (u ++ [closing]))

/-- The span of an expression goes over its tokens. -/
theorem Expr.Spells.span {ops : TextOps} {e : Expr} (h : e.Spells ops ts) :
    ts ≠ [] ∧ e.span = spanOf ts := by
  induction h with
  | identifier hname => exact hname.span
  | literal => exact ⟨by simp, rfl⟩
  | unary => exact ⟨by simp, rfl⟩
  | binary => exact ⟨by simp, rfl⟩
  | isNull _ _ ih => exact ⟨by simp [ih.1], rfl⟩
  | parenthesized => exact ⟨by simp, rfl⟩

theorem Expr.Spells.ends {ops : TextOps} {e : Expr} (h : e.Spells ops ts) :
    Ends ts e.span := by
  rw [h.span.2]
  exact ends_spanOf h.span.1

/-- The tokens of an expression of a statement: no more calls are nested in one another than
the parser allows. -/
structure Expr.Stands (ops : TextOps) (e : Expr) (ts : List Token) : Prop where
  spells : e.Spells ops ts
  precedes : e.erase.Precedes
  nesting : e.erase.nesting ≤ Parser.maxExpressionDepth

/-! ## statements -/

/-- The tokens of a type. -/
inductive TypeSpells : DataType → List Token → Prop where
  | boolean {ts : List Token} : key .bool ts ∨ key .boolean ts → TypeSpells .boolean ts
  | int64 {ts : List Token} : key .int ts ∨ key .integer ts ∨ key .bigint ts → TypeSpells .int64 ts
  | float64 {ts : List Token} : key .float ts ∨ key .double ts → TypeSpells .float64 ts
  | text {ts : List Token} : key .text ts ∨ key .varchar ts → TypeSpells (.text none) ts
  | varchar {raw : String} {length : Nat} {ts : List Token} :
      Parser.decimal raw = some length → 0 < length → length < 2 ^ 32 →
      Seq [key .varchar, word .leftParen, word (.number raw), word .rightParen] ts →
      TypeSpells (.text (some (UInt32.ofNat length))) ts

/-- The constraints of a column. -/
inductive Constraint where
  | primaryKey
  | notNull
  | null
  | unique
deriving DecidableEq

def Constraint.Spells : Constraint → List Token → Prop
  | .primaryKey => Seq [key .primary, key .key]
  | .notNull => Seq [key .not, key .null]
  | .null => key .null
  | .unique => key .unique

def ColumnDef.Spells (column : ColumnDef) (ts : List Token) : Prop :=
  ∃ constraints, Seq [column.name.Spells, TypeSpells column.dataType,
      Many Constraint.Spells constraints] ts ∧
    column.primaryKey = decide (Constraint.primaryKey ∈ constraints) ∧
    column.unique = decide (Constraint.unique ∈ constraints) ∧
    column.nullable = decide
    (Constraint.primaryKey ∉ constraints ∧ Constraint.notNull ∉ constraints) ∧
    column.span = spanOf ts

/-- IF NOT EXISTS or nothing. -/
abbrev IfNotExists : Bool → List Token → Prop := Flag [key .if, key .not, key .exists]

/-- IF EXISTS or nothing. -/
abbrev IfExists : Bool → List Token → Prop := Flag [key .if, key .exists]

def CreateTable.Spells (create : CreateTable) (ts : List Token) : Prop :=
  Seq [key .create, key .table, IfNotExists create.ifNotExists, create.name.Spells,
    word .leftParen, Commas ColumnDef.Spells create.columns, word .rightParen] ts ∧
  create.span = spanOf ts

def CreateIndex.Spells (create : CreateIndex) (ts : List Token) : Prop :=
  Seq [key .create, Flag [key .unique] create.unique, key .index, IfNotExists create.ifNotExists,
    create.name.Spells, key .on, create.table.Spells, word .leftParen,
    Commas Identifier.Spells create.columns, word .rightParen] ts ∧
  create.span = spanOf ts

def DropTable.Spells (drop : DropTable) (ts : List Token) : Prop :=
  Seq [key .drop, key .table, IfExists drop.ifExists, drop.name.Spells] ts ∧ drop.span = spanOf ts

def DropIndex.Spells (drop : DropIndex) (ts : List Token) : Prop :=
  Seq [key .drop, key .index, IfExists drop.ifExists, drop.name.Spells] ts ∧ drop.span = spanOf ts

/-- TRANSACTION, WORK or nothing. -/
def TransactionOrWork (ts : List Token) : Prop := key .transaction ts ∨ key .work ts ∨ ts = []

def BeginSpells (span : Span) (ts : List Token) : Prop :=
  (Seq [key .begin, TransactionOrWork] ts ∨ Seq [key .start, key .transaction] ts) ∧
    span = spanOf ts

def EndSpells (keyword : Keyword) (span : Span) (ts : List Token) : Prop :=
  Seq [key keyword, TransactionOrWork] ts ∧ span = spanOf ts

variable (ops : TextOps)

/-- A row of VALUES. -/
def RowSpells (row : List Expr) : List Token → Prop :=
  Seq [word .leftParen, Commas (Expr.Stands ops) row, word .rightParen]

def Insert.Spells (insert : Insert) (ts : List Token) : Prop :=
  Seq [key .insert, key .into, insert.table.Spells,
    Listed [word .leftParen] (word .comma) Identifier.Spells [word .rightParen] insert.columns,
    key .values, Commas (RowSpells ops) insert.rows] ts ∧
  insert.span = spanOf ts

/-- WHERE and a condition. -/
def WhereSpells (condition : Expr) : List Token → Prop := Seq [key .where, condition.Stands ops]

/-- AS and a name. -/
def AliasSpells (name : Identifier) : List Token → Prop := Seq [key .as, name.Spells]

def SelectItem.Spells : SelectItem → List Token → Prop
  | .wildcard span, ts => word .star ts ∧ span = spanOf ts
  | .expression e name span, ts =>
    Seq [e.Stands ops, Optional AliasSpells name] ts ∧ span = spanOf ts

/-- DESC, ASC or nothing. -/
def DirectionSpells : Bool → List Token → Prop
  | true, ts => key .desc ts
  | false, ts => key .asc ts ∨ ts = []

def OrderKey.Spells (order : OrderKey) (ts : List Token) : Prop :=
  Seq [order.expression.Stands ops, DirectionSpells order.descending] ts ∧ order.span = spanOf ts

/-- LIMIT and a number. -/
def LimitSpells (limit : UInt64) (ts : List Token) : Prop :=
  ∃ raw n, Parser.decimal raw = some n ∧ n < 2 ^ 64 ∧ limit = UInt64.ofNat n ∧
    Seq [key .limit, word (.number raw)] ts

def Select.Spells (select : Select) (ts : List Token) : Prop :=
  Seq [key .select, Commas (SelectItem.Spells ops) select.projection, key .from,
    select.from_.Spells, Optional (WhereSpells ops) select.selection,
    Listed [key .order, key .by] (word .comma) (OrderKey.Spells ops) [] select.orderBy,
    Optional LimitSpells select.limit] ts ∧
  select.span = spanOf ts

def Assignment.Spells (assignment : Assignment) (ts : List Token) : Prop :=
  Seq [assignment.column.Spells, word .equal, assignment.value.Stands ops] ts ∧
  assignment.span = spanOf ts

def Update.Spells (update : Update) (ts : List Token) : Prop :=
  Seq [key .update, update.table.Spells, key .set,
    Commas (Assignment.Spells ops) update.assignments,
    Optional (WhereSpells ops) update.selection] ts ∧
  update.span = spanOf ts

def Delete.Spells (delete : Delete) (ts : List Token) : Prop :=
  Seq [key .delete, key .from, delete.table.Spells,
    Optional (WhereSpells ops) delete.selection] ts ∧
  delete.span = spanOf ts

def Statement.Spells : Statement → List Token → Prop
  | .createTable create => create.Spells
  | .createIndex create => create.Spells
  | .dropTable drop => drop.Spells
  | .dropIndex drop => drop.Spells
  | .beginTransaction span => BeginSpells span
  | .commit span => EndSpells .commit span
  | .rollback span => EndSpells .rollback span
  | .insert statement => statement.Spells ops
  | .select statement => statement.Spells ops
  | .update statement => statement.Spells ops
  | .delete statement => statement.Spells ops

/-- The tokens of a text of statements, without the end: semicolons between each two,
and as many as one likes elsewhere. -/
inductive Script : List Statement → List Token → Prop where
  | done {front : List Token} : (∀ t ∈ front, t.kind = .semicolon) → Script [] front
  | last {front u : List Token} {statement : Statement} :
      (∀ t ∈ front, t.kind = .semicolon) → statement.Spells ops u → Script [statement] (front ++ u)
  | next {front u v w : List Token} {statement : Statement} {others : List Statement} :
      (∀ t ∈ front, t.kind = .semicolon) → statement.Spells ops u → word .semicolon v →
      Script others w → Script (statement :: others) (front ++ (u ++ (v ++ w)))

end Spanned

end QuantaDb.Syntax
