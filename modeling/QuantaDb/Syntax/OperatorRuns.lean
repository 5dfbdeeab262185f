import QuantaDb.Syntax.Grammar

/-!
# QuantaDb.Syntax.OperatorRuns

How many operators a text puts behind one another.

`operatorRun` counts them in the tokens alone: the operators inside the same parentheses
with no comma or semicolon between them.  `Runs` says what the tokens of a part of a text
do to the counts, and there is one rule for each combinator of the grammar.  So the
expressions of a text settle its count up to a constant: from below by their chains of
operators, from above by their heights (`Script.runs`).
-/

namespace QuantaDb.Syntax

open Parsing

/-! ## counting in tokens -/

/-- The operators counted so far in the innermost parentheses that are open and in those
around them, and the most that were counted in any. -/
structure Counts where
  inner : Nat
  outer : List Nat
  most : Nat
deriving DecidableEq, Repr

namespace Counts

/-- Parentheses begin a count of their own, a comma or a semicolon begins a new one, and
what can stand behind an operand is counted: a binary operator or IS. -/
def read (counts : Counts) : TokenKind → Counts
  | .leftParen => ⟨0, counts.inner :: counts.outer, counts.most⟩
  | .rightParen => ⟨counts.outer.headD 0, counts.outer.tail, counts.most⟩
  | .comma | .semicolon => ⟨0, counts.outer, counts.most⟩
  | kind =>
    if (Parser.nextPower kind).isSome then
      ⟨counts.inner + 1, counts.outer, max counts.most (counts.inner + 1)⟩
    else counts

/-- One token after the other. -/
def reads (counts : Counts) (ts : List Token) : Counts :=
  (ts.map Token.kind).foldl read counts

@[simp] theorem reads_nil (counts : Counts) : counts.reads [] = counts := rfl

@[simp] theorem reads_cons (counts : Counts) (t : Token) (ts : List Token) :
    counts.reads (t :: ts) = (counts.read t.kind).reads ts := rfl

theorem reads_append (counts : Counts) (ts us : List Token) :
    counts.reads (ts ++ us) = (counts.reads ts).reads us := by
  rw [reads, List.map_append, List.foldl_append]
  rfl

/-- An operator is counted. -/
theorem read_operator (counts : Counts) (operator : BinaryOperator) :
    counts.read operator.token =
      ⟨counts.inner + 1, counts.outer, max counts.most (counts.inner + 1)⟩ := by
  cases operator <;> rfl

end Counts

/-- The most operators of some tokens that stand in the same parentheses with no comma or
semicolon between them. -/
def operatorRun (ts : List Token) : Nat := (Counts.reads ⟨0, [], 0⟩ ts).most

/-! ## counting in trees -/

/-- Whether the token of an operator in front is counted, too. -/
def UnaryOperator.counted : UnaryOperator → Nat
  | .not => 0
  | .plus | .minus => 1

theorem Counts.read_unary (counts : Counts) (operator : UnaryOperator) :
    ∃ most, counts.read operator.token = ⟨counts.inner + operator.counted, counts.outer, most⟩ ∧
      counts.most ≤ most ∧ most ≤ max counts.most (counts.inner + 1) := by
  cases operator with
  | not => exact ⟨counts.most, rfl, Nat.le_refl _, Nat.le_max_left _ _⟩
  | plus | minus => exact ⟨_, rfl, Nat.le_max_left _ _, Nat.le_refl _⟩

namespace Expr

/-- The operators of an expression that are in no parentheses of it. -/
def operators : Expr → Nat
  | .unary operator e => operator.counted + e.operators
  | .binary left _ right => left.operators + 1 + right.operators
  | .isNull e _ => e.operators + 1
  | _ => 0

/-- The most turns that a loop of the parser took for an expression or for one inside it. -/
def longestChain : Expr → Nat
  | .unary _ e => e.longestChain
  | .binary left operator right =>
    max (binary left operator right).spine.length (max left.longestChain right.longestChain)
  | .isNull e negated => max (isNull e negated).spine.length e.longestChain
  | .parenthesized e => e.longestChain
  | _ => 0

theorem spine_le_operators (e : Expr) : e.spine.length ≤ e.operators := by
  induction e with
  | binary left operator right ih _ =>
    simp only [spine, operators, List.length_cons]
    omega
  | isNull e negated ih => exact Nat.succ_le_succ ih
  | _ => exact Nat.zero_le _

/-- A tree has room for so many operators. -/
theorem operators_lt (e : Expr) : e.operators < 2 ^ e.height := by
  induction e with
  | unary operator e ih =>
    have hone : operator.counted ≤ 1 := by cases operator <;> decide
    simp only [operators, height, Nat.pow_succ]
    omega
  | binary left operator right ihleft ihright =>
    have hl := Nat.pow_le_pow_right (show 0 < 2 by decide)
      (Nat.le_max_left left.height right.height)
    have hr := Nat.pow_le_pow_right (show 0 < 2 by decide)
      (Nat.le_max_right left.height right.height)
    simp only [operators, height, Nat.pow_succ]
    omega
  | isNull e negated ih =>
    simp only [operators, height, Nat.pow_succ]
    omega
  | _ => exact Nat.two_pow_pos _

end Expr

namespace Spanned

variable {ops : TextOps}

/-- The token of a literal is not counted. -/
theorem read_literal {kind : TokenKind} {value : Literal} (h : literalOf ops kind = some value)
    (counts : Counts) : counts.read kind = counts := by
  cases kind with
  | keyword keyword => cases keyword <;> first | rfl | cases h
  | number | string => rfl
  | _ => cases h

/-- **The tokens of an expression** add its operators to the count.  On the way there were as
many as the loops of the parser took turns, and no more than the tree has room for. -/
theorem Expr.Spells.reads {e : Expr} {ts : List Token} (h : e.Spells ops ts) (counts : Counts) :
    ∃ most, counts.reads ts = ⟨counts.inner + e.erase.operators, counts.outer, most⟩ ∧
      counts.most ≤ most ∧ e.erase.longestChain ≤ most ∧
      most ≤ max counts.most (counts.inner + 2 ^ e.erase.height) := by
  induction h generalizing counts with
  | @identifier name ts hname =>
    obtain ⟨t, ⟨hkind, rfl⟩, -⟩ := hname
    refine ⟨counts.most, ?_, Nat.le_refl _, Nat.zero_le _, Nat.le_max_left _ _⟩
    rw [Counts.reads_cons, hkind]
    rfl
  | @literal t value hvalue =>
    refine ⟨counts.most, ?_, Nat.le_refl _, Nat.zero_le _, Nat.le_max_left _ _⟩
    rw [Counts.reads_cons, read_literal hvalue]
    rfl
  | @unary t operator power e u hoperator _ ih =>
    obtain ⟨hkind, -⟩ := Parser.unaryOperator_eq_some.mp hoperator
    obtain ⟨most₁, hread, hle₁, hmost₁⟩ := counts.read_unary operator
    obtain ⟨most, hreads, hle, hchain, hmost⟩ :=
      ih ⟨counts.inner + operator.counted, counts.outer, most₁⟩
    have hone : operator.counted ≤ 1 := by cases operator <;> decide
    have hpos := Nat.two_pow_pos e.erase.height
    refine ⟨most, ?_, Nat.le_trans hle₁ hle, hchain, ?_⟩
    · rw [List.singleton_append, Counts.reads_cons, hkind, hread, hreads]
      simp only [Spanned.Expr.erase, Syntax.Expr.operators, Nat.add_assoc]
    · simp only [Spanned.Expr.erase, Syntax.Expr.height, Nat.pow_succ] at hmost ⊢
      omega
  | @binary left right operator t powers u v _ hoperator _ ihleft ihright =>
    obtain ⟨hkind, -⟩ := Parser.binaryOperator_eq_some.mp hoperator
    obtain ⟨most₁, hleft, hle₁, hchain₁, hmost₁⟩ := ihleft counts
    obtain ⟨most, hright, hle, hchain, hmost⟩ :=
      ihright ⟨counts.inner + left.erase.operators + 1, counts.outer,
        max most₁ (counts.inner + left.erase.operators + 1)⟩
    simp only at hle hmost
    have hspine := left.erase.spine_le_operators
    have hlt := left.erase.operators_lt
    have hl := Nat.pow_le_pow_right (show 0 < 2 by decide)
      (Nat.le_max_left left.erase.height right.erase.height)
    have hr := Nat.pow_le_pow_right (show 0 < 2 by decide)
      (Nat.le_max_right left.erase.height right.erase.height)
    refine ⟨most, ?_, by omega, ?_, ?_⟩
    · rw [Counts.reads_append, hleft, List.singleton_append, Counts.reads_cons, hkind,
        Counts.read_operator, hright]
      simp only [Spanned.Expr.erase, Syntax.Expr.operators, Nat.add_assoc]
    · refine max_le ?_ (max_le (by omega) hchain)
      simp only [Syntax.Expr.spine, List.length_cons]
      omega
    · simp only [Spanned.Expr.erase, Syntax.Expr.height, Nat.pow_succ] at hmost ⊢
      omega
  | @isNull e negated u v _ hnull ih =>
    obtain ⟨most₁, hreads, hle₁, hchain₁, hmost₁⟩ := ih counts
    have hlt := e.erase.operators_lt
    have hspine := e.erase.spine_le_operators
    have hv : ∀ counts : Counts, counts.reads v =
        ⟨counts.inner + 1, counts.outer, max counts.most (counts.inner + 1)⟩ := by
      intro counts
      obtain ⟨_, _, rfl, ⟨is, his, rfl⟩, _, _, rfl, hflag, _, _, rfl, ⟨null, hkind, rfl⟩, rfl⟩ :=
        hnull
      cases negated with
      | false =>
        obtain rfl := hflag
        simp only [List.nil_append, List.append_nil, List.singleton_append, Counts.reads_cons,
          his, hkind, Counts.reads_nil]
        rfl
      | true =>
        obtain ⟨_, _, rfl, ⟨not, hnot, rfl⟩, rfl⟩ := hflag
        simp only [List.append_nil, List.singleton_append, Counts.reads_cons,
          his, hnot, hkind, Counts.reads_nil]
        rfl
    refine ⟨max most₁ (counts.inner + e.erase.operators + 1), ?_, by omega, ?_, ?_⟩
    · rw [Counts.reads_append, hreads, hv]
      rfl
    · refine max_le ?_ (by omega)
      simp only [Syntax.Expr.spine, List.length_cons]
      omega
    · simp only [Spanned.Expr.erase, Syntax.Expr.height, Nat.pow_succ] at hmost₁ ⊢
      omega
  | @parenthesized e opening closing u hopening _ hclosing ih =>
    obtain ⟨most, hreads, hle, hchain, hmost⟩ := ih ⟨0, counts.inner :: counts.outer, counts.most⟩
    refine ⟨most, ?_, hle, hchain, ?_⟩
    · rw [List.singleton_append, Counts.reads_cons, hopening]
      simp only [Counts.read]
      rw [Counts.reads_append, hreads, Counts.reads_cons, hclosing]
      rfl
    · simp only [Spanned.Expr.erase, Syntax.Expr.height, Nat.pow_succ] at hmost ⊢
      omega

/-! ## counting in statements -/

/-- The calls that were nested in one another are no more than the parser allows. -/
def Expr.Limited (e : Expr) : Prop := e.erase.nesting ≤ Parser.maxExpressionDepth

/-- What tokens with some expressions in them do to the counts.  They leave those of the
parentheses around them; on the way there were as many operators as the loops of the parser
took turns; and if no expression is higher than `height`, they add at most `n` times what a
tree of this height has room for. -/
structure Runs (height n : Nat) (es : List Expr) (ts : List Token) : Prop where
  limited : ∀ e ∈ es, e.Limited
  reads : ∀ counts : Counts, ∃ inner most, counts.reads ts = ⟨inner, counts.outer, most⟩ ∧
    counts.most ≤ most ∧ (∀ e ∈ es, e.erase.longestChain ≤ most) ∧
    ((∀ e ∈ es, e.erase.height ≤ height) → inner ≤ counts.inner + n * 2 ^ height ∧
      most ≤ max counts.most (counts.inner + n * 2 ^ height))

namespace Runs

variable {height n m : Nat} {es fs : List Expr} {ts us : List Token}

/-- No tokens, or one that is not counted. -/
theorem quiet (h : ∀ counts : Counts, counts.reads ts = counts) : Runs height 0 [] ts where
  limited := by simp
  reads counts := ⟨counts.inner, counts.most, h counts, Nat.le_refl _, by simp, fun _ =>
    ⟨Nat.le_add_right _ _, Nat.le_max_left _ _⟩⟩

/-- An operator. -/
theorem operator {t : Token} (operator : BinaryOperator) (h : t.kind = operator.token) :
    Runs height 1 [] [t] where
  limited := by simp
  reads counts := by
    have hpos := Nat.two_pow_pos height
    refine ⟨counts.inner + 1, max counts.most (counts.inner + 1), ?_, Nat.le_max_left _ _, by simp,
      fun _ => ⟨by omega, by omega⟩⟩
    rw [Counts.reads_cons, h, Counts.read_operator, Counts.reads_nil]

/-- A weaker bound. -/
theorem mono (h : Runs height n es ts) (hle : n ≤ m) : Runs height m es ts := by
  refine ⟨h.limited, fun counts => ?_⟩
  obtain ⟨inner, most, hreads, hmost, hchain, hbound⟩ := h.reads counts
  have hmul := Nat.mul_le_mul_right (2 ^ height) hle
  refine ⟨inner, most, hreads, hmost, hchain, fun hheight => ?_⟩
  obtain ⟨hinner, hupper⟩ := hbound hheight
  omega

/-- One part after the other. -/
theorem append (h : Runs height n es ts) (h' : Runs height m fs us) :
    Runs height (n + m) (es ++ fs) (ts ++ us) := by
  refine ⟨List.forall_mem_append.mpr ⟨h.limited, h'.limited⟩, fun counts => ?_⟩
  obtain ⟨inner₁, most₁, hreads₁, hmost₁, hchain₁, hbound₁⟩ := h.reads counts
  obtain ⟨inner, most, hreads, hmost, hchain, hbound⟩ := h'.reads ⟨inner₁, counts.outer, most₁⟩
  simp only at hmost hbound
  refine ⟨inner, most, by rw [Counts.reads_append, hreads₁, hreads], by omega,
    List.forall_mem_append.mpr ⟨fun e he => Nat.le_trans (hchain₁ e he) hmost, hchain⟩,
    fun hheight => ?_⟩
  obtain ⟨hleft, hright⟩ := List.forall_mem_append.mp hheight
  obtain ⟨hinner₁, hupper₁⟩ := hbound₁ hleft
  obtain ⟨hinner, hupper⟩ := hbound hright
  rw [Nat.add_mul]
  omega

/-- Behind a separator the count begins again. -/
theorem separated {vs : List Token} (h : Runs height n es ts)
    (hsep : ∀ counts : Counts, counts.reads us = ⟨0, counts.outer, counts.most⟩)
    (h' : Runs height n fs vs) : Runs height n (es ++ fs) (ts ++ (us ++ vs)) := by
  refine ⟨List.forall_mem_append.mpr ⟨h.limited, h'.limited⟩, fun counts => ?_⟩
  obtain ⟨inner₁, most₁, hreads₁, hmost₁, hchain₁, hbound₁⟩ := h.reads counts
  obtain ⟨inner, most, hreads, hmost, hchain, hbound⟩ := h'.reads ⟨0, counts.outer, most₁⟩
  simp only at hmost hbound
  refine ⟨inner, most, by rw [Counts.reads_append, hreads₁, Counts.reads_append, hsep, hreads],
    by omega, List.forall_mem_append.mpr ⟨fun e he => Nat.le_trans (hchain₁ e he) hmost, hchain⟩,
    fun hheight => ?_⟩
  obtain ⟨hleft, hright⟩ := List.forall_mem_append.mp hheight
  obtain ⟨hinner₁, hupper₁⟩ := hbound₁ hleft
  obtain ⟨hinner, hupper⟩ := hbound hright
  omega

/-- What is in parentheses is counted apart. -/
theorem parenthesized {before after : List Token} (hbefore : word .leftParen before)
    (h : Runs height n es ts) (hafter : word .rightParen after) :
    Runs height n es (before ++ (ts ++ after)) := by
  obtain ⟨opening, hopening, rfl⟩ := hbefore
  obtain ⟨closing, hclosing, rfl⟩ := hafter
  refine ⟨h.limited, fun counts => ?_⟩
  obtain ⟨inner, most, hreads, hmost, hchain, hbound⟩ :=
    h.reads ⟨0, counts.inner :: counts.outer, counts.most⟩
  simp only at hmost hbound
  refine ⟨counts.inner, most, ?_, hmost, hchain, fun hheight => ⟨Nat.le_add_right _ _, ?_⟩⟩
  · rw [List.singleton_append, Counts.reads_cons, hopening]
    simp only [Counts.read]
    rw [Counts.reads_append, hreads, Counts.reads_cons, hclosing]
    rfl
  · have := (hbound hheight).2
    omega

end Runs

/-- All tokens of a language do that. -/
def Counted (height n : Nat) (es : List Expr) (language : List Token → Prop) : Prop :=
  ∀ ts, language ts → Runs height n es ts

namespace Counted

variable {height n m : Nat} {es fs : List Expr} {language : List Token → Prop}
  {languages : List (List Token → Prop)} {α : Type}

theorem word {kind : TokenKind} (h : ∀ counts : Counts, counts.read kind = counts) :
    Counted height 0 [] (word kind) := by
  rintro _ ⟨t, hkind, rfl⟩
  refine .quiet fun counts => ?_
  rw [Counts.reads_cons, hkind, h, Counts.reads_nil]

/-- A keyword that is not an operator. -/
theorem key {keyword : Keyword} (h : Parser.nextPower (.keyword keyword) = none) :
    Counted height 0 [] (key keyword) := by
  refine .word fun counts => ?_
  simp [Counts.read, h]

theorem identifier {name : Identifier} : Counted height 0 [] name.Spells := by
  rintro ts ⟨t, ht, -⟩
  exact Counted.word (fun _ => rfl) ts ht.word

theorem nil : Counted height 0 [] (Seq []) := by
  rintro _ rfl
  exact .quiet fun _ => rfl

theorem cons (h : Counted height n es language) (h' : Counted height m fs (Seq languages)) :
    Counted height (n + m) (es ++ fs) (Seq (language :: languages)) := by
  rintro _ ⟨u, v, rfl, hu, hv⟩
  exact (h u hu).append (h' v hv)

/-- A part that is not counted in front. -/
theorem skip (h : Counted height 0 [] language) (h' : Counted height m fs (Seq languages)) :
    Counted height m fs (Seq (language :: languages)) := by
  have hboth := h.cons h'
  rwa [Nat.zero_add, List.nil_append] at hboth

/-- The last part. -/
theorem last (h : Counted height n es language) : Counted height n es (Seq [language]) := by
  have hboth := h.cons nil
  rwa [List.append_nil] at hboth

/-- Items without expressions have none together. -/
theorem plain {as : List α} (h : Counted height n (as.flatMap fun _ => []) language) :
    Counted height n [] language := by
  rwa [List.flatMap_eq_nil_iff.mpr fun _ _ => rfl] at h

theorem flag {words : List (List Token → Prop)} {flag : Bool}
    (h : Counted height 0 [] (Seq words)) : Counted height 0 [] (Flag words flag) := by
  intro ts hts
  cases flag with
  | false => exact nil ts hts
  | true => exact h ts hts

theorem optional {item : α → List Token → Prop} {es : α → List Expr}
    (h : ∀ a, Counted height n (es a) (item a)) (a : Option α) :
    Counted height n (a.toList.flatMap es) (Optional item a) := by
  intro ts hts
  cases a with
  | none => exact (nil ts hts).mono (Nat.zero_le n)
  | some a => simpa using h a ts hts

theorem many {item : α → List Token → Prop} (h : ∀ a, Counted height 0 [] (item a)) (as : List α) :
    Counted height 0 [] (Many item as) := by
  intro ts hts
  induction hts with
  | nil => exact .quiet fun _ => rfl
  | cons ha _ ih => exact (h _ _ ha).append ih

/-- The items of a list. -/
theorem commas {item : α → List Token → Prop} {es : α → List Expr}
    (h : ∀ a, Counted height n (es a) (item a)) (as : List α) :
    Counted height n (as.flatMap es) (Commas item as) := by
  intro ts hts
  induction hts with
  | one ha => simpa using h _ _ ha
  | cons ha hcomma _ ih =>
    obtain ⟨t, hkind, rfl⟩ := hcomma
    refine (h _ _ ha).separated (fun counts => ?_) ih
    rw [Counts.reads_cons, hkind]
    rfl

/-- A list in parentheses. -/
theorem parenthesized (h : Counted height n es language) :
    Counted height n es (Seq [Syntax.word .leftParen, language, Syntax.word .rightParen]) := by
  rintro _ ⟨_, _, rfl, hbefore, _, _, rfl, hts, _, _, rfl, hafter, rfl⟩
  rw [List.append_nil]
  exact .parenthesized hbefore (h _ hts) hafter

end Counted

section

variable {height : Nat}

/-- An expression of a statement. -/
theorem Expr.counted (e : Expr) : Counted height 1 [e] (e.Stands ops) := by
  intro ts h
  refine ⟨List.forall_mem_singleton.mpr h.nesting, fun counts => ?_⟩
  obtain ⟨most, hreads, hle, hchain, hmost⟩ := h.spells.reads counts
  refine ⟨_, most, hreads, hle, List.forall_mem_singleton.mpr hchain, fun hheight => ?_⟩
  have hlt := e.erase.operators_lt
  have hpow := Nat.pow_le_pow_right (show 0 < 2 by decide) (hheight e (List.mem_singleton_self e))
  omega

theorem counted_type {dataType : DataType} : Counted height 0 [] (TypeSpells dataType) := by
  intro ts h
  cases h with
  | boolean h => exact h.elim (Counted.key rfl ts) (Counted.key rfl ts)
  | int64 h =>
    exact h.elim (Counted.key rfl ts) fun h => h.elim (Counted.key rfl ts) (Counted.key rfl ts)
  | float64 h => exact h.elim (Counted.key rfl ts) (Counted.key rfl ts)
  | text h => exact h.elim (Counted.key rfl ts) (Counted.key rfl ts)
  | varchar _ _ _ h =>
    exact (Counted.key rfl).skip (.parenthesized (.word fun _ => rfl)) ts h

theorem Constraint.counted (constraint : Constraint) : Counted height 0 [] constraint.Spells := by
  cases constraint with
  | primaryKey => exact (Counted.key rfl).skip (Counted.key rfl).last
  | notNull => exact (Counted.key rfl).skip (Counted.key rfl).last
  | null => exact .key rfl
  | unique => exact .key rfl

theorem ColumnDef.counted (column : ColumnDef) : Counted height 0 [] column.Spells := by
  rintro ts ⟨constraints, h, -⟩
  exact Counted.identifier.skip (counted_type.skip
    (Counted.many Constraint.counted constraints).last) ts h

/-- A list of expressions is the list of its parts. -/
theorem counted_row (row : List Expr) : Counted height 1 row (RowSpells ops row) := by
  have h := (Counted.commas (@Expr.counted ops height) row).parenthesized
  rwa [List.flatMap_singleton'] at h

theorem counted_where (condition : Expr) :
    Counted height 1 [condition] (WhereSpells ops condition) :=
  (Counted.key rfl).skip condition.counted.last

def SelectItem.expressions : SelectItem → List Expr
  | .wildcard _ => []
  | .expression e _ _ => [e]

/-- An item of a select list. -/
theorem SelectItem.counted (item : SelectItem) :
    Counted height 1 item.expressions (item.Spells ops) := by
  cases item with
  | wildcard span =>
    rintro ts ⟨⟨t, hkind, rfl⟩, -⟩
    exact .operator .multiply hkind
  | expression e name span =>
    rintro ts ⟨h, -⟩
    have halias : ∀ name, Counted height 0 [] (AliasSpells name) := fun name =>
      (Counted.key rfl).skip Counted.identifier.last
    exact e.counted.cons (Counted.optional halias name).plain.last ts h

theorem counted_direction (descending : Bool) :
    Counted height 0 [] (DirectionSpells descending) := by
  intro ts h
  cases descending with
  | true => exact Counted.key rfl ts h
  | false => exact h.elim (Counted.key rfl ts) (Counted.nil ts)

/-- A key of `ORDER BY`. -/
theorem OrderKey.counted (order : OrderKey) :
    Counted height 1 [order.expression] (order.Spells ops) := by
  rintro ts ⟨h, -⟩
  exact order.expression.counted.cons (counted_direction _).last ts h

theorem counted_order (keys : List OrderKey) :
    Counted height 1 (keys.map OrderKey.expression) (Listed [key .order, key .by]
      (word .comma) (OrderKey.Spells ops) [] keys) := by
  cases keys with
  | nil => exact fun ts h => (Counted.nil ts h).mono (Nat.zero_le 1)
  | cons order keys =>
    rw [List.map_eq_flatMap]
    exact (Counted.key rfl).skip ((Counted.key rfl).skip
      (Counted.commas (@OrderKey.counted ops height) (order :: keys)).last)

theorem counted_limit (limit : UInt64) : Counted height 0 [] (LimitSpells limit) := by
  rintro ts ⟨raw, n, -, -, -, h⟩
  exact (Counted.key rfl).skip (Counted.word fun _ => rfl).last ts h

/-- The sign of an assignment is counted as an operator. -/
theorem Assignment.counted (assignment : Assignment) :
    Counted height 2 [assignment.value] (assignment.Spells ops) := by
  rintro ts ⟨h, -⟩
  have hequal : Counted height 1 [] (word .equal) := by
    rintro _ ⟨t, hkind, rfl⟩
    exact .operator .equal hkind
  exact Counted.identifier.skip (hequal.cons assignment.value.counted.last) ts h

/-- The expressions of a statement. -/
def Statement.expressions : Statement → List Expr
  | .insert statement => statement.rows.flatten
  | .select statement =>
    statement.projection.flatMap SelectItem.expressions ++
      (statement.selection.toList ++ statement.orderBy.map OrderKey.expression)
  | .update statement =>
    statement.assignments.map Assignment.value ++ statement.selection.toList
  | .delete statement => statement.selection.toList
  | _ => []

/-- **A statement.** -/
theorem Statement.counted (statement : Statement) :
    Counted height 3 statement.expressions (statement.Spells ops) := by
  have hflag : ∀ {keyword : Keyword} {flag : Bool}, Parser.nextPower (.keyword keyword) = none →
      Counted height 0 [] (Flag [key keyword] flag) := fun h => .flag (Counted.key h).last
  have hif : ∀ flag, Counted height 0 [] (IfNotExists flag) := fun flag =>
    .flag ((Counted.key rfl).skip ((Counted.key rfl).skip (Counted.key rfl).last))
  have hdrop : ∀ flag, Counted height 0 [] (IfExists flag) := fun flag =>
    .flag ((Counted.key rfl).skip (Counted.key rfl).last)
  have hwork : Counted height 0 [] TransactionOrWork := by
    intro ts h
    exact h.elim (Counted.key rfl ts) fun h => h.elim (Counted.key rfl ts) (Counted.nil ts)
  have hwhere := Counted.optional (@counted_where ops height)
  simp only [List.flatMap_singleton'] at hwhere
  have hnone : ∀ {ts}, Runs height 0 [] ts → Runs height 3 [] ts := fun h => h.mono (Nat.zero_le 3)
  cases statement with
  | createTable create =>
    rintro ts ⟨h, -⟩
    have hcolumns := (Counted.commas (@ColumnDef.counted height) create.columns).plain.parenthesized
    exact hnone ((Counted.key rfl).skip ((Counted.key rfl).skip ((hif _).skip
      (Counted.identifier.skip hcolumns))) ts h)
  | createIndex create =>
    rintro ts ⟨h, -⟩
    have hcolumns := (Counted.commas (fun name => @Counted.identifier height name)
      create.columns).plain.parenthesized
    exact hnone ((Counted.key rfl).skip ((hflag rfl).skip ((Counted.key rfl).skip ((hif _).skip
      (Counted.identifier.skip ((Counted.key rfl).skip
        (Counted.identifier.skip hcolumns)))))) ts h)
  | dropTable drop | dropIndex drop =>
    rintro ts ⟨h, -⟩
    exact hnone ((Counted.key rfl).skip ((Counted.key rfl).skip ((hdrop _).skip
      Counted.identifier.last)) ts h)
  | beginTransaction span =>
    rintro ts ⟨h | h, -⟩
    · exact hnone ((Counted.key rfl).skip hwork.last ts h)
    · exact hnone ((Counted.key rfl).skip (Counted.key rfl).last ts h)
  | commit span | rollback span =>
    rintro ts ⟨h, -⟩
    exact hnone ((Counted.key rfl).skip hwork.last ts h)
  | insert insert =>
    rintro ts ⟨h, -⟩
    have hcolumns : Counted height 0 [] (Listed [word .leftParen] (word .comma)
        Identifier.Spells [word .rightParen] insert.columns) := by
      intro ts h
      cases hcolumns : insert.columns with
      | nil =>
        rw [hcolumns] at h
        exact Counted.nil ts h
      | cons name names =>
        rw [hcolumns] at h
        exact (Counted.commas (fun name => @Counted.identifier height name)
          (name :: names)).plain.parenthesized ts h
    have hrows := Counted.commas (@counted_row ops height) insert.rows
    have hall := (Counted.key rfl).skip ((Counted.key rfl).skip (Counted.identifier.skip
      (hcolumns.skip ((Counted.key rfl).skip hrows.last)))) ts h
    rw [List.flatMap_id'] at hall
    exact hall.mono (by decide)
  | select select =>
    rintro ts ⟨h, -⟩
    have hitems := Counted.commas (@SelectItem.counted ops height) select.projection
    have hlimit := (Counted.optional (@counted_limit height) select.limit).plain
    have hall := (Counted.key rfl).skip (hitems.cons ((Counted.key rfl).skip
      (Counted.identifier.skip ((hwhere select.selection).cons
        ((counted_order select.orderBy).cons hlimit.last))))) ts h
    rwa [List.append_nil] at hall
  | update update =>
    rintro ts ⟨h, -⟩
    have hassignments := Counted.commas (@Assignment.counted ops height) update.assignments
    rw [← List.map_eq_flatMap] at hassignments
    exact (Counted.key rfl).skip (Counted.identifier.skip ((Counted.key rfl).skip
      (hassignments.cons (hwhere update.selection).last))) ts h
  | delete delete =>
    rintro ts ⟨h, -⟩
    have hall := (Counted.key rfl).skip ((Counted.key rfl).skip (Counted.identifier.skip
      (hwhere delete.selection).last)) ts h
    exact hall.mono (by decide)

theorem reads_semicolon {t : Token} (h : t.kind = .semicolon) (counts : Counts) :
    counts.reads [t] = ⟨0, counts.outer, counts.most⟩ := by
  rw [Counts.reads_cons, h]
  rfl

theorem runs_semicolons {n : Nat} {es : List Expr} {front ts : List Token}
    (hfront : ∀ t ∈ front, t.kind = .semicolon) (h : Runs height n es ts) :
    Runs height n es (front ++ ts) := by
  induction front with
  | nil => exact h
  | cons t front ih =>
    rw [List.forall_mem_cons] at hfront
    have hnone : Runs height n [] [] := (Runs.quiet fun _ => rfl).mono (Nat.zero_le n)
    exact hnone.separated (reads_semicolon hfront.1) (ih hfront.2)

/-- **A text** of statements. -/
theorem Script.runs {statements : List Statement} {ts : List Token}
    (h : Script ops statements ts) :
    Runs height 3 (statements.flatMap Statement.expressions) ts := by
  induction h with
  | @done front hfront =>
    have hnone : Runs height 3 [] [] := (Runs.quiet fun _ => rfl).mono (Nat.zero_le 3)
    have h := runs_semicolons hfront hnone
    rwa [List.append_nil] at h
  | last hfront hstatement =>
    rw [List.flatMap_singleton]
    exact runs_semicolons hfront (Statement.counted _ _ hstatement)
  | next hfront hstatement hsemicolon _ ih =>
    obtain ⟨t, hkind, rfl⟩ := hsemicolon
    exact runs_semicolons hfront
      ((Statement.counted _ _ hstatement).separated (reads_semicolon hkind) ih)

end

end Spanned

end QuantaDb.Syntax
