import QuantaDb.Syntax.StatementSound

/-!
# QuantaDb.Syntax.Spans

The spans of tokens, of the nodes of statements and of errors.

A statement is seen as a tree of nodes with spans.  What a node spells gives the tokens
that its children cover; since tokens are in the order of the text, children lie inside
their parents and one behind another.
-/

namespace QuantaDb.Syntax

open Parsing

/-! ## nodes -/

/-- A node of the syntax tree. -/
inductive Node where
  | mk (span : Span) (children : List Node)

namespace Node

def span : Node → Span
  | .mk span _ => span

/-- The first lies before the second. -/
def Before (first second : Node) : Prop := first.span.stop ≤ second.span.start

/-- Children lie inside their parents and one behind another. -/
inductive Nested : Node → Prop where
  | mk {span : Span} {children : List Node} :
      (∀ child ∈ children, span.start ≤ child.span.start ∧ child.span.stop ≤ span.stop) →
      children.Pairwise Before → (∀ child ∈ children, child.Nested) → Nested (.mk span children)

end Node

namespace Spanned

def Identifier.node (name : Identifier) : Node := .mk name.span []

def Expr.node : Expr → Node
  | .identifier name => .mk name.span [name.node]
  | .literal _ span => .mk span []
  | .unary _ e span => .mk span [e.node]
  | .binary left _ right span => .mk span [left.node, right.node]
  | .isNull e _ span => .mk span [e.node]
  | .parenthesized e span => .mk span [e.node]

def ColumnDef.node (column : ColumnDef) : Node := .mk column.span [column.name.node]

def SelectItem.node : SelectItem → Node
  | .wildcard span => .mk span []
  | .expression e name span => .mk span (e.node :: name.toList.map Identifier.node)

def OrderKey.node (order : OrderKey) : Node := .mk order.span [order.expression.node]

def Assignment.node (assignment : Assignment) : Node :=
  .mk assignment.span [assignment.column.node, assignment.value.node]

namespace Statement

/-- The nodes of a statement in the order of the text. -/
def children : Statement → List Node
  | .createTable create => create.name.node :: create.columns.map ColumnDef.node
  | .createIndex create =>
    create.name.node :: create.table.node :: create.columns.map Identifier.node
  | .dropTable drop => [drop.name.node]
  | .dropIndex drop => [drop.name.node]
  | .beginTransaction _ | .commit _ | .rollback _ => []
  | .insert statement =>
    statement.table.node :: (statement.columns.map Identifier.node ++
      statement.rows.flatMap (List.map Expr.node))
  | .select statement =>
    statement.projection.map SelectItem.node ++ statement.from_.node ::
      (statement.selection.toList.map Expr.node ++ statement.orderBy.map OrderKey.node)
  | .update statement =>
    statement.table.node :: (statement.assignments.map Assignment.node ++
      statement.selection.toList.map Expr.node)
  | .delete statement => statement.table.node :: statement.selection.toList.map Expr.node

def node (statement : Statement) : Node := .mk statement.span statement.children

end Statement

end Spanned

/-! ## tokens of nodes -/

mutual

/-- A node has the span of some tokens, and its children have spans of tokens among
them. -/
inductive Covers : Node → List Token → Prop where
  | mk {children : List Node} {ts : List Token} :
      ts ≠ [] → Chunks children ts → Covers (.mk (spanOf ts) children) ts

/-- Nodes that cover tokens one behind another. -/
inductive Chunks : List Node → List Token → Prop where
  | nil {ts : List Token} : Chunks [] ts
  | cons {node : Node} {nodes : List Node} {front u v : List Token} :
      Covers node u → Chunks nodes v → Chunks (node :: nodes) (front ++ (u ++ v))

end

namespace Chunks

/-- Tokens before are nobody's. -/
theorem front {nodes : List Node} {ts : List Token} (h : Chunks nodes ts) (u : List Token) :
    Chunks nodes (u ++ ts) := by
  cases h with
  | nil => exact .nil
  | cons hnode hnodes =>
    rw [← List.append_assoc]
    exact .cons hnode hnodes

/-- Chunks one after the other. -/
theorem append {ns ms : List Node} {u v : List Token} (hu : Chunks ns u) (hv : Chunks ms v) :
    Chunks (ns ++ ms) (u ++ v) := by
  induction ns generalizing u with
  | nil => exact hv.front u
  | cons n ns ih =>
    cases hu with
    | cons hnode hnodes =>
      rw [List.append_assoc, List.append_assoc]
      exact .cons hnode (ih hnodes)

theorem one {node : Node} {u : List Token} (h : Covers node u) : Chunks [node] u := by
  have := @cons node [] [] u [] h .nil
  rwa [List.nil_append, List.append_nil] at this

/-- A node in front of others. -/
theorem node {node : Node} {nodes : List Node} {u v : List Token} (hu : Covers node u)
    (hv : Chunks nodes v) : Chunks (node :: nodes) (u ++ v) :=
  (one hu).append hv

/-- The nodes of a list with separators. -/
theorem sepBy {α : Type} {separator : List Token → Prop} {item : α → List Token → Prop}
    {nodes : α → List Node} (hitem : ∀ a ts, item a ts → Chunks (nodes a) ts) {as : List α}
    {ts : List Token} (h : SepBy separator item as ts) : Chunks (as.flatMap nodes) ts := by
  induction h with
  | one ha =>
    rw [List.flatMap_cons, List.flatMap_nil, List.append_nil]
    exact hitem _ _ ha
  | cons ha _ _ ih =>
    rw [List.flatMap_cons]
    exact (hitem _ _ ha).append (ih.front _)

theorem sepBy_map {α : Type} {separator : List Token → Prop} {item : α → List Token → Prop}
    {node : α → Node} (hitem : ∀ a ts, item a ts → Covers (node a) ts) {as : List α}
    {ts : List Token} (h : SepBy separator item as ts) : Chunks (as.map node) ts := by
  have hchunks := @sepBy _ _ _ (fun a => [node a]) (fun a ts ha => .one (hitem a ts ha)) _ _ h
  rwa [← List.map_eq_flatMap] at hchunks

/-- The node of an optional part. -/
theorem optional {α : Type} {item : α → List Token → Prop} {node : α → Node}
    (hitem : ∀ a ts, item a ts → Chunks [node a] ts) {a : Option α} {ts : List Token}
    (h : Optional item a ts) : Chunks (a.toList.map node) ts := by
  cases a with
  | none => exact .nil
  | some a => exact hitem a ts h

end Chunks

/-- The nodes of the words of a sequence. -/
def Yields (words : List (List Token → Prop)) (nodes : List Node) : Prop :=
  ∀ ts, Seq words ts → Chunks nodes ts

namespace Yields

variable {first : List Token → Prop} {words : List (List Token → Prop)} {ns ms : List Node}

/-- A word of its own makes no node. -/
theorem skip (h : Yields words ns) : Yields (first :: words) ns := by
  rintro _ ⟨u, v, rfl, -, hv⟩
  exact (h v hv).front u

/-- A part that makes nodes. -/
theorem some (hfirst : ∀ ts, first ts → Chunks ns ts) (h : Yields words ms) :
    Yields (first :: words) (ns ++ ms) := by
  rintro _ ⟨u, v, rfl, hu, hv⟩
  exact (hfirst u hu).append (h v hv)

theorem node {n : Node} (hfirst : ∀ ts, first ts → Covers n ts) (h : Yields words ms) :
    Yields (first :: words) (n :: ms) :=
  some (fun ts hts => .one (hfirst ts hts)) h

theorem last (hfirst : ∀ ts, first ts → Chunks ns ts) : Yields (first :: words) ns := by
  rintro _ ⟨u, v, rfl, hu, -⟩
  have := (hfirst u hu).append (@Chunks.nil v)
  rwa [List.append_nil] at this

theorem lastNode {n : Node} (hfirst : ∀ ts, first ts → Covers n ts) : Yields (first :: words) [n] :=
  last fun ts hts => .one (hfirst ts hts)

end Yields

namespace Spanned

variable {ops : TextOps}

/-- A name covers its token. -/
theorem Identifier.covers (name : Identifier) (ts : List Token) (h : name.Spells ts) :
    Covers name.node ts := by
  rw [Identifier.node, h.span.2]
  exact .mk h.span.1 .nil

/-- **An expression** covers its tokens, and its operands theirs, one after the other. -/
theorem Expr.covers (e : Expr) (ts : List Token) (h : e.Spells ops ts) : Covers e.node ts := by
  have hne := h.span.1
  induction h with
  | identifier hname =>
    rw [Expr.node, hname.span.2]
    exact .mk hne (.one (Identifier.covers _ _ hname))
  | literal => exact .mk hne .nil
  | unary _ he ih => exact .mk hne (.front (.one (ih he.span.1)) _)
  | binary hleft _ hright ihleft ihright =>
    exact .mk hne (.node (ihleft hleft.span.1) (.front (.one (ihright hright.span.1)) _))
  | isNull he _ ih => exact .mk hne (.node (ih he.span.1) .nil)
  | parenthesized _ he _ ih => exact .mk hne (.front (.node (ih he.span.1) .nil) _)

theorem Expr.covers_stands (e : Expr) (ts : List Token) (h : e.Stands ops ts) : Covers e.node ts :=
  e.covers ts h.spells

/-- A node whose span is that of its tokens. -/
theorem covers_of_span {ts : List Token} {span : Span} {children : List Node}
    (hspan : span = spanOf ts) (hne : ts ≠ [])
    (h : Chunks children ts) : Covers (.mk span children) ts := by
  rw [hspan]
  exact .mk hne h

/-- A column covers its tokens. -/
theorem ColumnDef.covers (column : ColumnDef) (ts : List Token) (h : column.Spells ts) :
    Covers column.node ts := by
  obtain ⟨cs, hseq, -, -, -, hspan⟩ := h
  have hne : ts ≠ [] := by
    obtain ⟨u, v, rfl, hname, -⟩ := hseq
    simp [hname.span.1]
  exact covers_of_span hspan hne (Yields.lastNode (Identifier.covers _) ts hseq)

theorem yields_alias {name : Option Identifier} :
    Yields [Optional AliasSpells name] (name.toList.map Identifier.node) :=
  .last fun _ => Chunks.optional fun name ts h =>
    Yields.skip (Yields.lastNode (Identifier.covers name)) ts h

theorem SelectItem.covers (item : SelectItem) (ts : List Token) (h : item.Spells ops ts) :
    Covers item.node ts := by
  cases item with
  | wildcard span =>
    obtain ⟨⟨t, -, rfl⟩, hspan⟩ := h
    exact covers_of_span hspan (by simp) .nil
  | expression e name span =>
    have hne : ts ≠ [] := by
      obtain ⟨⟨u, v, rfl, he, -⟩, -⟩ := h
      simp [he.spells.span.1]
    exact covers_of_span h.2 hne (Yields.node (Expr.covers_stands _) yields_alias ts h.1)

theorem OrderKey.covers (order : OrderKey) (ts : List Token) (h : order.Spells ops ts) :
    Covers order.node ts :=
  covers_of_span h.2 (Parser.OrderKey.Spells.ne_nil h)
    (Yields.lastNode (Expr.covers_stands _) ts h.1)

theorem Assignment.covers (assignment : Assignment) (ts : List Token)
    (h : assignment.Spells ops ts) :
    Covers assignment.node ts :=
  covers_of_span h.2 (Parser.Assignment.Spells.ends h).1
    (Yields.node (Identifier.covers _)
      (.skip (.lastNode (Expr.covers_stands _))) ts h.1)

/-- The condition of `WHERE`. -/
theorem chunks_where {selection : Option Expr} (ts : List Token) :
    Optional (WhereSpells ops) selection ts → Chunks (selection.toList.map Expr.node) ts :=
  Chunks.optional fun e ts h => Yields.skip (Yields.lastNode (Expr.covers_stands e)) ts h

/-- The columns of an `INSERT`. -/
theorem chunks_columns {columns : List Identifier} (ts : List Token) :
    Listed [word .leftParen] (word .comma) Identifier.Spells [word .rightParen] columns ts →
      Chunks (columns.map Identifier.node) ts := by
  cases columns with
  | nil => exact fun _ => .nil
  | cons name names =>
    exact Yields.skip (.last fun _ => Chunks.sepBy_map Identifier.covers) ts

/-- The keys of `ORDER BY`. -/
theorem chunks_order {keys : List OrderKey} (ts : List Token) :
    Parser.OrderSpells ops keys ts → Chunks (keys.map OrderKey.node) ts := by
  cases keys with
  | nil => exact fun _ => .nil
  | cons order keys =>
    exact Yields.skip (.skip (.last fun _ => Chunks.sepBy_map OrderKey.covers)) ts

/-- The expressions of the rows. -/
theorem chunks_rows {rows : List (List Expr)} (ts : List Token) :
    Commas (RowSpells ops) rows ts → Chunks (rows.flatMap (List.map Expr.node)) ts :=
  Chunks.sepBy fun _ ts h => Yields.skip (.last fun _ => Chunks.sepBy_map Expr.covers_stands) ts h

/-- **A statement** covers its tokens. -/
theorem Statement.covers (statement : Statement) (ts : List Token) (h : statement.Spells ops ts) :
    Covers statement.node ts := by
  have hne := Parser.Statement.Spells.ne_nil h
  cases statement with
  | createTable create =>
    exact covers_of_span h.2 hne (Yields.skip (.skip (.skip (.node (Identifier.covers _) (.skip
      (.last fun _ => Chunks.sepBy_map ColumnDef.covers))))) ts h.1)
  | createIndex create =>
    exact covers_of_span h.2 hne
      (Yields.skip (.skip (.skip (.skip (.node (Identifier.covers _) (.skip
      (.node (Identifier.covers _) (.skip (.last fun _ => Chunks.sepBy_map Identifier.covers))))))))
      ts h.1)
  | dropTable drop =>
    exact covers_of_span h.2 hne
      (Yields.skip (.skip (.skip (.lastNode (Identifier.covers _)))) ts h.1)
  | dropIndex drop =>
    exact covers_of_span h.2 hne
      (Yields.skip (.skip (.skip (.lastNode (Identifier.covers _)))) ts h.1)
  | beginTransaction span => exact covers_of_span h.2 hne .nil
  | commit span => exact covers_of_span h.2 hne .nil
  | rollback span => exact covers_of_span h.2 hne .nil
  | insert insert =>
    exact covers_of_span h.2 hne (Yields.skip (.skip (.node (Identifier.covers _)
      (.some chunks_columns (.skip (.last chunks_rows))))) ts h.1)
  | select select =>
    exact covers_of_span h.2 hne (Yields.skip (.some
      (fun _ => Chunks.sepBy_map SelectItem.covers)
      (.skip (.node (Identifier.covers _) (.some chunks_where (.last chunks_order))))) ts h.1)
  | update update =>
    exact covers_of_span h.2 hne (Yields.skip (.node (Identifier.covers _) (.skip (.some
      (fun _ => Chunks.sepBy_map Assignment.covers) (.last chunks_where)))) ts h.1)
  | delete delete =>
    exact covers_of_span h.2 hne
      (Yields.skip (.skip (.node (Identifier.covers _) (.last chunks_where))) ts h.1)

/-- The statements of a script, one after the other. -/
theorem Script.chunks {statements : List Statement} {ts : List Token}
    (h : Script ops statements ts) :
    Chunks (statements.map Statement.node) ts := by
  induction h with
  | done => exact .nil
  | last _ hstatement => exact .front (.one (Statement.covers _ _ hstatement)) _
  | next _ hstatement _ _ ih =>
    exact .front (.node (Statement.covers _ _ hstatement) (.front ih _)) _

end Spanned

/-! ## tokens in order -/

/-- Tokens that are not empty, one behind another. -/
structure Ordered (ts : List Token) : Prop where
  nonempty : ∀ t ∈ ts, t.span.start < t.span.stop
  increasing : ts.Pairwise fun a b => a.span.stop ≤ b.span.start

namespace Ordered

variable {ts u v : List Token}

theorem left (h : Ordered (u ++ v)) : Ordered u :=
  ⟨fun t ht => h.nonempty t (List.mem_append_left v ht), (List.pairwise_append.mp h.increasing).1⟩

theorem right (h : Ordered (u ++ v)) : Ordered v :=
  ⟨fun t ht => h.nonempty t (List.mem_append_right u ht),
    (List.pairwise_append.mp h.increasing).2.1⟩

theorem start_le (h : Ordered ts) {t : Token} (ht : t ∈ ts) : (spanOf ts).start ≤ t.span.start := by
  cases ts with
  | nil => cases ht
  | cons first ts =>
    change first.span.start ≤ _
    rcases List.mem_cons.mp ht with rfl | ht
    · exact Nat.le_refl _
    · have hbefore := List.rel_of_pairwise_cons h.increasing ht
      have hfirst := h.nonempty first (by simp)
      omega

theorem le_stop (h : Ordered ts) {t : Token} (ht : t ∈ ts) : t.span.stop ≤ (spanOf ts).stop := by
  obtain ⟨front, last, rfl⟩ := (List.eq_nil_or_concat' ts).resolve_left (List.ne_nil_of_mem ht)
  have hlast : (spanOf (front ++ [last])).stop = last.span.stop := by simp [spanOf]
  rw [hlast]
  rcases List.mem_append.mp ht with ht | ht
  · have hbefore := (List.pairwise_append.mp h.increasing).2.2 t ht last (by simp)
    have := h.nonempty last (by simp)
    omega
  · rw [List.mem_singleton.mp ht]

end Ordered

/-- A node begins and ends where tokens do. -/
theorem Covers.ends {node : Node} {ts : List Token} (h : Covers node ts) :
    (∃ t ∈ ts, node.span.start = t.span.start) ∧ ∃ t ∈ ts, node.span.stop = t.span.stop := by
  cases h with
  | mk hne _ =>
    constructor
    · cases ts with
      | nil => exact absurd rfl hne
      | cons t ts => exact ⟨t, by simp, rfl⟩
    · obtain ⟨front, last, rfl⟩ := (List.eq_nil_or_concat' ts).resolve_left hne
      exact ⟨last, by simp, by simp [Node.span, spanOf]⟩

/-- Nodes that cover tokens begin and end with some of them. -/
theorem Chunks.ends {nodes : List Node} {ts : List Token} (h : Chunks nodes ts) {node : Node}
    (hnode : node ∈ nodes) :
    (∃ t ∈ ts, node.span.start = t.span.start) ∧ ∃ t ∈ ts, node.span.stop = t.span.stop := by
  induction nodes generalizing ts with
  | nil => cases hnode
  | cons first nodes ih =>
    cases h with
    | @cons _ _ front u v hfirst hnodes =>
      rcases List.mem_cons.mp hnode with rfl | hnode
      · obtain ⟨⟨a, ha, hstart⟩, b, hb, hstop⟩ := hfirst.ends
        exact ⟨⟨a, by simp [ha], hstart⟩, b, by simp [hb], hstop⟩
      · obtain ⟨⟨a, ha, hstart⟩, b, hb, hstop⟩ := ih hnodes hnode
        exact ⟨⟨a, by simp [ha], hstart⟩, b, by simp [hb], hstop⟩

/-- Nodes of different chunks do not overlap. -/
theorem Chunks.before {nodes : List Node} {ts : List Token} (h : Chunks nodes ts)
    (hts : Ordered ts) :
    nodes.Pairwise Node.Before := by
  induction nodes generalizing ts with
  | nil => exact .nil
  | cons first nodes ih =>
    cases h with
    | @cons _ _ front u v hfirst hnodes =>
      refine .cons (fun node hnode => ?_) (ih hnodes hts.right.right)
      obtain ⟨-, b, hb, hstop⟩ := hfirst.ends
      obtain ⟨⟨a, ha, hstart⟩, -⟩ := hnodes.ends hnode
      rw [Node.Before, hstop, hstart]
      exact (List.pairwise_append.mp hts.right.increasing).2.2 b hb a ha

mutual

/-- **Nesting.**  The children of a node lie in it, in order. -/
theorem Covers.nested {node : Node} {ts : List Token} (h : Covers node ts) (hts : Ordered ts) :
    node.Nested := by
  cases h with
  | mk _ hchildren =>
    refine .mk (fun child hchild => ?_) (hchildren.before hts) (hchildren.nested hts)
    obtain ⟨⟨a, ha, hstart⟩, b, hb, hstop⟩ := hchildren.ends hchild
    rw [hstart, hstop]
    exact ⟨hts.start_le ha, hts.le_stop hb⟩

theorem Chunks.nested {nodes : List Node} {ts : List Token} (h : Chunks nodes ts)
    (hts : Ordered ts) :
    ∀ node ∈ nodes, node.Nested := by
  cases h with
  | nil => simp
  | cons hnode hnodes =>
    exact List.forall_mem_cons.mpr ⟨hnode.nested hts.right.left, hnodes.nested hts.right.right⟩

end

/-! ## tokens of a text -/

/-- A span of a text, between characters of it. -/
def InText (sql : String) (span : Span) : Prop :=
  ∃ front word back, sql.toList = front ++ word ++ back ∧
    span = ⟨size front, size front + size word⟩

theorem size_pos {cs : List Char} (h : cs ≠ []) : 0 < size cs := by
  cases cs with
  | nil => exact absurd rfl h
  | cons c cs =>
    have := Char.utf8Size_pos c
    rw [size_cons]
    omega

/-- The tokens of a text: they stand in it, one behind another, and between them there
are only white space and comments. -/
structure TokensOf (ops : TextOps) (sql : String) (tokens : List Token) : Prop where
  lexes : Lexes ops sql.toList 0 tokens
  nonempty : ∀ t ∈ tokens, t.kind ≠ .eof → t.span.start < t.span.stop
  increasing : tokens.Pairwise fun a b => a.span.stop ≤ b.span.start
  inText : ∀ t ∈ tokens, InText sql t.span

namespace Lexes

variable {ops : TextOps} {text : List Char} {offset : Nat} {tokens : List Token}

/-- Tokens have text. -/
theorem nonempty (h : Lexes ops text offset tokens) :
    ∀ t ∈ tokens, t.kind ≠ .eof → t.span.start < t.span.stop := by
  induction h with
  | eof => simp
  | token _ hword _ _ ih =>
    refine List.forall_mem_cons.mpr ⟨fun _ => ?_, ih⟩
    have := size_pos hword
    simp only
    omega

theorem start_le (h : Lexes ops text offset tokens) : ∀ t ∈ tokens, offset ≤ t.span.start := by
  induction h with
  | eof => simp
  | token _ _ _ _ ih =>
    refine List.forall_mem_cons.mpr ⟨Nat.le_add_right _ _, fun t ht => ?_⟩
    have := ih t ht
    omega

/-- Tokens come one after the other. -/
theorem increasing (h : Lexes ops text offset tokens) :
    tokens.Pairwise fun a b => a.span.stop ≤ b.span.start := by
  induction h with
  | eof => simp
  | token _ _ _ hrest ih => exact .cons hrest.start_le ih

/-- The span of a token is cut out of the text. -/
theorem inText (h : Lexes ops text offset tokens) {sql : String} {front : List Char}
    (hsql : sql.toList = front ++ text) (hoffset : offset = size front) :
    ∀ t ∈ tokens, InText sql t.span := by
  induction h generalizing front with
  | @eof gap =>
    refine List.forall_mem_singleton.mpr ⟨front ++ gap, [], [], ?_, ?_⟩
    · simp [hsql]
    · simp [hoffset]
  | @token gap word rest offset kind tokens _ _ _ _ ih =>
    refine List.forall_mem_cons.mpr ⟨⟨front ++ gap, word, rest, ?_, ?_⟩, ?_⟩
    · simp [hsql]
    · simp [hoffset]
    · exact @ih (front ++ gap ++ word) (by simp [hsql]) (by simp [hoffset, Nat.add_assoc])

/-- The end of the text is the last token and no other. -/
theorem split (h : Lexes ops text offset tokens) :
    ∃ front last, tokens = front ++ [last] ∧ last.kind = .eof ∧ ∀ t ∈ front, t.kind ≠ .eof := by
  induction h with
  | eof => exact ⟨[], _, rfl, rfl, by simp⟩
  | token _ _ hkind _ ih =>
    obtain ⟨front, last, rfl, hlast, hfront⟩ := ih
    exact ⟨_ :: front, last, rfl, hlast, List.forall_mem_cons.mpr ⟨hkind, hfront⟩⟩

end Lexes

/-- What `tokenize` returns are the tokens of the text. -/
theorem tokensOf_tokenize {ops : TextOps} {sql : String} {tokens : List Token}
    (h : tokenize ops sql = .ok tokens) : TokensOf ops sql tokens := by
  have hlexes : Lexes ops sql.toList 0 tokens :=
    @Lexer.lexes_tokens ops _ ⟨sql.toList, 0⟩ _ (Nat.lt_succ_self _) h
  exact ⟨hlexes, hlexes.nonempty, hlexes.increasing,
    @Lexes.inText _ _ _ _ hlexes sql [] (by simp) rfl⟩

/-- The span of an error of `tokenize` is cut out of the text. -/
theorem inText_tokenize {ops : TextOps} {sql : String} {e : SyntaxError}
    (h : tokenize ops sql = .error e) : InText sql e.span := by
  obtain ⟨front, word, back, htext, hspan⟩ := @Lexer.within_tokens ops _ ⟨sql.toList, 0⟩ _ h
  refine ⟨front, word, back, htext, ?_⟩
  rw [hspan]
  simp

/-! ## the parser -/

/-- What is still to be read of a text: tokens of it up to its end. -/
def Input (tokens rest : List Token) : Prop :=
  (∃ front last, rest = front ++ [last] ∧ last.kind = .eof ∧ ∀ t ∈ front, t.kind ≠ .eof) ∧
    ∀ t ∈ rest, t ∈ tokens

instance (tokens : List Token) : Parser.Source (Input tokens) (· ∈ tokens) where
  current := by
    rintro rest ⟨⟨front, last, rfl, -, -⟩, hmem⟩
    cases front with
    | nil => exact hmem last (by simp)
    | cons t front => exact hmem t (by simp)
  tail := by
    rintro t rest ⟨⟨front, last, heq, hlast, hfront⟩, hmem⟩ hkind
    cases front with
    | nil =>
      cases heq
      exact absurd hlast hkind
    | cons t' front =>
      cases heq
      rw [List.forall_mem_cons] at hfront hmem
      exact ⟨⟨front, last, rfl, hlast, hfront.2⟩, hmem.2⟩

/-- Where the end of the text is read, nothing else is left. -/
theorem Input.eq_singleton {tokens rest : List Token} (h : Input tokens rest)
    (heof : (Parser.current rest).kind = .eof) : ∃ last, rest = [last] ∧ last.kind = .eof := by
  obtain ⟨⟨front, last, rfl, hlast, hfront⟩, -⟩ := h
  cases front with
  | nil => exact ⟨last, rfl, hlast⟩
  | cons t front => exact absurd heof (hfront t (by simp))

theorem reads_text (ops : TextOps) (tokens : List Token) :
    Parsing.Reads (Input tokens) (Parser.Blames (· ∈ tokens))
    (fun rest => rest.length ≤ tokens.length)
      (Parser.statements ops tokens.length) fun found ts rest =>
        Spanned.Script ops found ts ∧ (Parser.current rest).kind = .eof :=
  Parser.reads_statements tokens.length

theorem TokensOf.input {ops : TextOps} {sql : String} {tokens : List Token}
    (h : TokensOf ops sql tokens) : Input tokens tokens :=
  ⟨h.lexes.split, fun _ ht => ht⟩

/-- All tokens of a text are consumed but its end. -/
theorem script_of_parseSql {ops : TextOps} {sql : String} {statements : List Spanned.Statement}
    (h : parseSql ops sql = .ok statements) :
    ∃ consumed, (∃ last, tokenize ops sql = .ok (consumed ++ [last]) ∧ last.kind = .eof) ∧
      Spanned.Script ops statements consumed := by
  obtain ⟨tokens, htokens, h⟩ := Fallible.bind_eq_ok.mp h
  obtain ⟨parsed, hparsed, h⟩ := Fallible.bind_eq_ok.mp h
  cases h
  obtain ⟨hrest, consumed, hconsumed, hscript, heof⟩ :=
    (reads_text ops tokens).ok (tokensOf_tokenize htokens).input (Nat.le_refl _) hparsed
  obtain ⟨last, hlast, hkind⟩ := hrest.eq_singleton heof
  rw [hlast] at hconsumed
  exact ⟨consumed, ⟨last, by rw [htokens, hconsumed], hkind⟩, hscript⟩

/-- The tokens before the end of a text are in order. -/
theorem TokensOf.ordered {ops : TextOps} {sql : String} {front : List Token} {last : Token}
    (h : TokensOf ops sql (front ++ [last])) : Ordered front := by
  refine ⟨fun t ht => h.nonempty t (by simp [ht]) ?_, (List.pairwise_append.mp h.increasing).1⟩
  obtain ⟨front', last', hsplit, -, hfront⟩ := h.lexes.split
  obtain ⟨rfl, -⟩ := List.append_inj' hsplit rfl
  exact hfront t ht

/-- The spans of tokens, nodes and errors are exact: tokens stand in the text one behind
another, a node spells the tokens that its span goes over, with its children inside and one
behind another, and an error is at a place in the text. -/
theorem spans_exact (ops : TextOps) (sql : String) :
    (∀ tokens, tokenize ops sql = .ok tokens → TokensOf ops sql tokens) ∧
    (∀ statements, parseSql ops sql = .ok statements → ∃ consumed last,
      tokenize ops sql = .ok (consumed ++ [last]) ∧ last.kind = .eof ∧
      Spanned.Script ops statements consumed ∧
      (∀ statement ∈ statements, statement.node.Nested) ∧
      (statements.map Spanned.Statement.node).Pairwise Node.Before) ∧
    ∀ e, tokenize ops sql = .error e ∨ parseSql ops sql = .error e → InText sql e.span := by
  refine ⟨fun tokens h => tokensOf_tokenize h, fun statements h => ?_, fun e h => ?_⟩
  · obtain ⟨consumed, ⟨last, htokens, hkind⟩, hscript⟩ := script_of_parseSql h
    have hordered := (tokensOf_tokenize htokens).ordered
    have hchunks := hscript.chunks
    exact ⟨consumed, last, htokens, hkind, hscript,
      fun statement hmem => hchunks.nested hordered _ (List.mem_map_of_mem hmem),
      hchunks.before hordered⟩
  · rcases h with h | h
    · exact inText_tokenize h
    · rcases Fallible.bind_eq_error.mp h with h | ⟨tokens, htokens, h⟩
      · exact inText_tokenize h
      · have hof := tokensOf_tokenize htokens
        rcases Fallible.bind_eq_error.mp h with h | ⟨parsed, -, h⟩
        · obtain ⟨t, ht, hspan⟩ := (reads_text ops tokens).error hof.input (Nat.le_refl _) h
          rw [hspan]
          exact hof.inText t ht
        · cases h

end QuantaDb.Syntax
