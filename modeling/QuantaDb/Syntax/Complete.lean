import QuantaDb.Syntax.Sound

/-!
# QuantaDb.Syntax.Complete

The parser of expressions against the trees that keep to the precedence of operators: it
returns no others, and it returns each of them from its tokens.
-/

namespace QuantaDb.Syntax

open Parsing

/-! ## trees -/

namespace Expr

/-- How tight the operator of an expression binds, if it is one behind an operand. -/
def level : Expr → Option Nat
  | .binary _ operator _ => some operator.power
  | .isNull _ _ => some Parser.isBindingPower
  | _ => none

/-- Precedence by the operators of operands alone: right operands bind tighter than their
parent, left operands and those of NOT and IS NULL at least as tight, and a sign takes
neither. -/
def Respects : Expr → Prop
  | .unary .not e => e.Respects ∧ ∀ power ∈ e.level, Parser.isBindingPower ≤ power
  | .unary _ e => e.Respects ∧ e.level = none
  | .binary left operator right =>
    left.Respects ∧ right.Respects ∧ (∀ power ∈ left.level, operator.power ≤ power) ∧
      ∀ power ∈ right.level, operator.power < power
  | .isNull e _ => e.Respects ∧ ∀ power ∈ e.level, Parser.isBindingPower ≤ power
  | .parenthesized e => e.Respects
  | _ => True

/-- An expression that begins with NOT. -/
def IsNot : Expr → Prop
  | .unary .not _ => True
  | _ => False

/-- NOT stands at the top, inside parentheses or as an operand of AND, OR or NOT. -/
def NotPlaced : Expr → Prop
  | .unary .not e => e.NotPlaced
  | .unary _ e => e.NotPlaced ∧ ¬e.IsNot
  | .binary left operator right =>
    left.NotPlaced ∧ right.NotPlaced ∧
      (operator = .and ∨ operator = .or ∨ ¬left.IsNot ∧ ¬right.IsNot)
  | .isNull e _ => e.NotPlaced ∧ ¬e.IsNot
  | .parenthesized e => e.NotPlaced
  | _ => True

/-- Below the root of a tree that respects precedence, its spine binds tighter and tighter. -/
theorem Respects.spine {e : Expr} (h : e.Respects) {minimum : Nat}
    (hlevel : ∀ power ∈ e.level, minimum ≤ power) : ∀ power ∈ e.spine, minimum ≤ power := by
  induction e with
  | binary left operator right ihleft _ =>
    have hroot := hlevel operator.power rfl
    refine List.forall_mem_cons.mpr ⟨hroot, ihleft h.1 fun power hpower => ?_⟩
    exact Nat.le_trans hroot (h.2.2.1 power hpower)
  | isNull e negated ih =>
    have hroot := hlevel Parser.isBindingPower rfl
    refine List.forall_mem_cons.mpr ⟨hroot, ih h.1 fun power hpower => ?_⟩
    exact Nat.le_trans hroot (h.2 power hpower)
  | _ => simp [Expr.spine]

/-- An operator that binds no tighter than an operand before it is not taken from it. -/
theorem closes_of_level {e : Expr} {power : Nat} (h : ∀ level ∈ e.level, power ≤ level)
    (hle : power ≤ 9) (hnot : e.IsNot → power < Parser.isBindingPower) : e.Closes power := by
  cases e with
  | binary left operator right => exact h operator.power rfl
  | unary operator e =>
    cases operator with
    | not => exact hnot trivial
    | plus => exact Nat.lt_of_le_of_lt hle (by decide)
    | minus => exact Nat.lt_of_le_of_lt hle (by decide)
  | _ => trivial

/-- NOT is an operand of AND and OR only. -/
theorem power_lt_of_not {left right : Expr} {operator : BinaryOperator}
    (h : (Expr.binary left operator right).NotPlaced) (hnot : left.IsNot ∨ right.IsNot) :
    operator.power < Parser.isBindingPower := by
  obtain ⟨-, -, rfl | rfl | h⟩ := h
  · decide
  · decide
  · exact absurd hnot (not_or.mpr h)

/-- A tree that respects precedence and places NOT keeps to it. -/
theorem Respects.precedes {e : Expr} (h : e.Respects) (hnot : e.NotPlaced) : e.Precedes := by
  induction e with
  | unary operator e ih =>
    cases operator with
    | not => exact ⟨ih h.1 hnot, h.1.spine h.2⟩
    | _ => exact ⟨ih h.1 hnot.1, h.1.spine (by simp [h.2])⟩
  | binary left operator right ihleft ihright =>
    refine ⟨ihleft h.1 hnot.1, ihright h.2.1 hnot.2.1, ?_, h.2.1.spine h.2.2.2⟩
    exact closes_of_level h.2.2.1 operator.power_le fun hleft =>
      power_lt_of_not hnot (.inl hleft)
  | isNull e negated ih =>
    exact ⟨ih h.1 hnot.1, closes_of_level h.2 (by decide) fun he => absurd he hnot.2⟩
  | parenthesized e ih => exact ih h hnot
  | _ => trivial

theorem nesting_pos (e : Expr) : 0 < e.nesting := by
  induction e with
  | binary left operator right ihleft _ => exact Nat.lt_of_lt_of_le ihleft (Nat.le_max_left _ _)
  | isNull e negated ih => exact ih
  | _ => simp [nesting]

end Expr

/-! ## lexemes -/

variable {ops : TextOps}

/-- A lexeme that is a kind is that of its token. -/
theorem kind_of_lexeme {t : Token} {kind : TokenKind} (h : lexeme ops t = .kind kind) :
    t.kind = kind := by
  unfold lexeme at h
  split at h
  · rename_i raw hraw
    split at h
    · cases h
    · cases h
      rfl
  · cases h
    rfl

/-- The lexeme of a literal gives its value. -/
theorem literalOf_of_lexeme {t : Token} {value : Literal} (h : lexeme ops t = value.lexeme) :
    Spanned.literalOf ops t.kind = some value := by
  have hnumber : ∀ literal : Literal, lexeme ops t = .literal literal →
      Spanned.literalOf ops t.kind = some literal := by
    intro literal hliteral
    unfold lexeme at hliteral
    split at hliteral
    · rename_i raw hraw
      split at hliteral
      · rename_i hvalue
        cases hliteral
        rw [hraw, Spanned.literalOf, hvalue]
        rfl
      · cases hliteral
    · cases hliteral
  cases value with
  | null => rw [kind_of_lexeme h, Spanned.literalOf]
  | boolean value => cases value <;> rw [kind_of_lexeme h, Spanned.literalOf]
  | string value => rw [kind_of_lexeme h, Spanned.literalOf]
  | integer value => exact hnumber _ h
  | float value => exact hnumber _ h

theorem lexeme_of_literalOf {t : Token} {value : Literal}
    (h : Spanned.literalOf ops t.kind = some value) : lexeme ops t = value.lexeme := by
  unfold Spanned.literalOf at h
  unfold lexeme
  split at h
  · rename_i hkind
    cases h
    rw [hkind]
    rfl
  · rename_i raw hkind
    rw [hkind]
    simp only
    cases hvalue : Parser.numberLiteral ops raw with
    | error message =>
      rw [hvalue] at h
      cases h
    | ok literal =>
      rw [hvalue] at h
      cases h
      -- numbers are integers or floats
      unfold Parser.numberLiteral at hvalue
      split at hvalue <;> split at hvalue <;> cases hvalue <;> rfl
  all_goals
    first
    | (rename_i hkind; cases h; rw [hkind]; rfl)
    | cases h

theorem lexeme_of_kind {t : Token} (h : ∀ raw, t.kind ≠ .number raw) :
    lexeme ops t = .kind t.kind := by
  unfold lexeme
  split
  · rename_i raw hraw
    exact absurd hraw (h raw)
  · rfl

/-! ## what is consumed -/

/-- The tokens that an expression spells are those of its tree. -/
theorem Spanned.Expr.Spells.flatten {e : Spanned.Expr} {ts : List Token} (h : e.Spells ops ts) :
    ts.map (lexeme ops) = e.erase.flatten := by
  induction h with
  | identifier hname =>
    obtain ⟨t, ⟨hkind, rfl⟩, -⟩ := hname
    simp [lexeme_of_kind, hkind, Spanned.Expr.erase, Spanned.Identifier.erase, Expr.flatten]
  | literal hvalue => simp [lexeme_of_literalOf hvalue, Spanned.Expr.erase, Expr.flatten]
  | @unary t operator power e u hoperator _ ih =>
    have hkind := (Parser.unaryOperator_eq_some.mp hoperator).1
    have ht : lexeme ops t = .kind operator.token := by
      rw [lexeme_of_kind (by cases operator <;> simp [hkind, UnaryOperator.token]), hkind]
    simp [ht, ih, Spanned.Expr.erase, Expr.flatten]
  | @binary left right operator t powers u v _ hoperator _ ihleft ihright =>
    have hkind := (Parser.binaryOperator_eq_some.mp hoperator).1
    have ht : lexeme ops t = .kind operator.token := by
      rw [lexeme_of_kind (by cases operator <;> simp [hkind, BinaryOperator.token]), hkind]
    simp [ht, ihleft, ihright, Spanned.Expr.erase, Expr.flatten]
  | @isNull e negated u v _ hseq ih =>
    obtain ⟨_, _, rfl, ⟨is, his, rfl⟩, _, _, rfl, hflag, _, _, rfl, ⟨null, hnull, rfl⟩, rfl⟩ := hseq
    have hword : ∀ {t : Token} {keyword : Keyword}, t.kind = .keyword keyword →
        lexeme ops t = .kind (.keyword keyword) := by
      intro t keyword hkind
      rw [lexeme_of_kind (by simp [hkind]), hkind]
    cases negated with
    | false =>
      rw [show _ = [] from hflag]
      simp [ih, hword his, hword hnull, Spanned.Expr.erase, Expr.flatten]
    | true =>
      obtain ⟨_, _, rfl, ⟨not, hnot, rfl⟩, rfl⟩ := hflag
      simp [ih, hword his, hword hnot, hword hnull, Spanned.Expr.erase, Expr.flatten]
  | parenthesized hopening _ hclosing ih =>
    simp [lexeme_of_kind, hopening, hclosing, ih, Spanned.Expr.erase, Expr.flatten]

/-! ## runs -/

namespace Parser

variable {rest : List Token} {t : Token}

/-- How a parser that returns goes on. -/
theorem run_bind {α β : Type} {p : Parser α} {f : α → Parser β} {rest rest' : List Token} {a : α}
    (h : p rest = .ok (a, rest')) : (p >>= f) rest = f a rest' := by
  change (p rest >>= _) = _
  rw [h]
  rfl

theorem run_kind {β : Type} {f : TokenKind → Parser β} :
    (kind >>= f) rest = f (current rest).kind rest := rfl

theorem run_advance (h : t.kind ≠ .eof) : advance (t :: rest) = .ok (t, rest) := by
  change Except.ok (t, if t.kind = .eof then _ else rest) = _
  rw [if_neg h]

theorem current_cons : current (t :: rest) = t := rfl

theorem run_expect {expected : TokenKind} {message : String} (h : t.kind = expected)
    (heof : expected ≠ .eof) : expect expected message (t :: rest) = .ok (t, rest) := by
  subst h
  rw [expect, current_cons, if_pos rfl, run_advance heof]

theorem run_consume {expected : TokenKind} (h : t.kind = expected) (heof : expected ≠ .eof) :
    consume expected (t :: rest) = .ok (some t, rest) := by
  subst h
  rw [consume, current_cons, if_pos rfl, run_advance heof]
  rfl

theorem run_consume_none {expected : TokenKind} (h : t.kind ≠ expected) :
    consume expected (t :: rest) = .ok (none, t :: rest) := by
  rw [consume]
  exact if_neg h

variable {sub : Nat → Parser Spanned.Expr} {minimum turns : Nat} {e : Spanned.Expr}

/-- The loop ends at an operator that binds less than `minimum`. -/
theorem operatorLoop_of_stops (h : Stops minimum rest) :
    operatorLoop sub minimum turns e rest = .ok (e, rest) := by
  cases turns with
  | zero => rfl
  | succ turns =>
    rw [operatorLoop, run_kind]
    by_cases his : (current rest).kind = .keyword .is
    · have hlt : isBindingPower < minimum := h _ (by rw [his, nextPower_is])
      rw [if_pos his, if_pos hlt]
      rfl
    · rw [if_neg his]
      cases hoperator : binaryOperator (current rest).kind with
      | none => rfl
      | some found =>
        obtain ⟨operator, powers⟩ := found
        obtain ⟨hkind, rfl⟩ := binaryOperator_eq_some.mp hoperator
        have hlt : operator.power < minimum := h _ (by rw [hkind, nextPower_token])
        simp only
        rw [if_pos hlt]
        rfl

/-- A turn of the loop on a binary operator. -/
theorem operatorLoop_binary {operator : BinaryOperator} {right : Spanned.Expr} {ts : List Token}
    (hkind : t.kind = operator.token) (hle : minimum ≤ operator.power)
    (hright : sub (operator.power + 1) ts = .ok (right, rest)) :
    operatorLoop sub minimum (turns + 1) e (t :: ts) =
      operatorLoop sub minimum turns (.binary e operator right (e.span.join right.span)) rest := by
  have his : operator.token ≠ .keyword .is := by cases operator <;> simp [BinaryOperator.token]
  have heof : operator.token ≠ .eof := by cases operator <;> simp [BinaryOperator.token]
  have hsuffix : binarySuffix sub e operator (operator.power + 1) (t :: ts) =
      .ok (.binary e operator right (e.span.join right.span), rest) := by
    rw [binarySuffix, run_bind (run_advance (by rwa [hkind])), run_bind hright]
    rfl
  rw [operatorLoop, run_kind, current_cons, hkind, if_neg his,
    binaryOperator_eq_some.mpr ⟨rfl, rfl⟩]
  simp only
  rw [if_neg (Nat.not_lt.mpr hle), run_bind hsuffix]

/-- A turn of the loop on IS [NOT] NULL. -/
theorem operatorLoop_isNull {negated : Bool} {ts : List Token}
    (hts : ts.map (lexeme ops) = .kind (.keyword .is) ::
      ((if negated then [.kind (.keyword .not)] else []) ++ [.kind (.keyword .null)]))
    (hle : minimum ≤ isBindingPower) :
    ∃ span, operatorLoop sub minimum (turns + 1) e (ts ++ rest) =
      operatorLoop sub minimum turns (.isNull e negated span) rest := by
  obtain ⟨is, ts, rfl, his, hts⟩ := List.map_eq_cons_iff.mp hts
  have hkind := kind_of_lexeme his
  obtain ⟨span, hsuffix⟩ : ∃ span, isNullSuffix e (is :: (ts ++ rest)) =
      .ok (.isNull e negated span, rest) := by
    rw [isNullSuffix, run_bind (run_advance (by simp [hkind]))]
    cases negated with
    | false =>
      obtain ⟨null, rfl, hnull⟩ := List.map_eq_singleton_iff.mp hts
      have hkind := kind_of_lexeme hnull
      refine ⟨e.span.join null.span, ?_⟩
      change (consume _ >>= _) (null :: rest) = _
      rw [run_bind (run_consume_none (by simp [hkind])), expectKeyword,
        run_bind (run_expect hkind (by simp))]
      rfl
    | true =>
      obtain ⟨not, ts, rfl, hnot, hts⟩ := List.map_eq_cons_iff.mp hts
      obtain ⟨null, rfl, hnull⟩ := List.map_eq_singleton_iff.mp hts
      refine ⟨e.span.join null.span, ?_⟩
      change (consume _ >>= _) (not :: null :: rest) = _
      rw [run_bind (run_consume (kind_of_lexeme hnot) (by simp)), expectKeyword,
        run_bind (run_expect (kind_of_lexeme hnull) (by simp))]
      rfl
  refine ⟨span, ?_⟩
  rw [List.cons_append, operatorLoop, run_kind, current_cons, if_pos hkind,
    if_neg (Nat.not_lt.mpr hle), run_bind hsuffix]

theorem primaryFrom_literal {value : Literal} (h : Spanned.literalOf ops t.kind = some value) :
    primaryFrom ops sub t = pure (.literal value t.span) := by
  unfold Spanned.literalOf at h
  unfold primaryFrom
  split at h
  case h_2 raw hkind =>
    rw [hkind]
    simp only
    cases hvalue : numberLiteral ops raw with
    | error message =>
      rw [hvalue] at h
      cases h
    | ok literal =>
      rw [hvalue] at h
      cases h
      rfl
  all_goals
    first
    | (rename_i hkind; cases h; rw [hkind])
    | cases h

/-! ## from tokens to trees -/

/-- A tree that can be parsed from its tokens: no operand of it takes the operator that
follows. -/
structure Fits (ops : TextOps) (levels minimum : Nat) (e : Expr) (ts rest : List Token) : Prop where
  tokens : ts.map (lexeme ops) = e.flatten
  precedes : e.Precedes
  placed : e.NotPlaced
  nesting : e.nesting ≤ levels
  spine : ∀ power ∈ e.spine, minimum ≤ power
  closes : ∀ power, nextPower (current rest).kind = some power → e.Closes power

/-- The parser reads the tokens of a tree and is then in its loop, with the tree on the left. -/
def Climbs (ops : TextOps) (e : Expr) : Prop :=
  ∀ levels minimum ts rest, Fits ops (levels + 1) minimum e ts rest →
    ∃ (e' : Spanned.Expr) (turns : Nat), e'.erase = e ∧ rest.length ≤ turns ∧
      parseExpression ops (levels + 1) minimum (ts ++ rest) =
        operatorLoop (parseExpression ops levels) minimum turns e' rest

/-- The parser returns a tree where its loop ends. -/
def Returns (ops : TextOps) (levels minimum : Nat) (e : Expr) (ts rest : List Token) : Prop :=
  ∃ e' : Spanned.Expr,
    e'.erase = e ∧ parseExpression ops levels minimum (ts ++ rest) = .ok (e', rest)

/-- The loop stops where nothing follows that binds as tightly. -/
theorem Climbs.returns {e : Expr} (h : Climbs ops e) {levels minimum : Nat} {ts rest : List Token}
    (hfits : Fits ops levels minimum e ts rest) (hstops : Stops minimum rest) :
    Returns ops levels minimum e ts rest := by
  cases levels with
  | zero => exact absurd hfits.nesting (Nat.not_le.mpr e.nesting_pos)
  | succ levels =>
    obtain ⟨e', turns, herase, -, hrun⟩ := h levels minimum ts rest hfits
    exact ⟨e', herase, by rw [hrun, operatorLoop_of_stops hstops]⟩

theorem nextPower_le {kind : TokenKind} {power : Nat} (h : nextPower kind = some power) :
    power ≤ 9 := by
  unfold nextPower at h
  split at h
  · cases h
    decide
  · obtain ⟨⟨operator, powers⟩, hoperator, rfl⟩ := Option.map_eq_some_iff.mp h
    rw [(binaryOperator_eq_some.mp hoperator).2]
    exact operator.power_le

/-- Where a call of the parser stops, the operand that it returns is not added to. -/
theorem closes_of_stops {e : Expr} {minimum : Nat} {rest : List Token}
    (hspine : ∀ power ∈ e.spine, minimum ≤ power) (hnot : e.IsNot → minimum ≤ isBindingPower)
    (hstops : Stops minimum rest) :
    ∀ power, nextPower (current rest).kind = some power → e.Closes power := by
  intro power hpower
  have hlt := hstops power hpower
  refine Expr.closes_of_level (fun level hlevel => ?_) (nextPower_le hpower) fun h =>
    Nat.lt_of_lt_of_le hlt (hnot h)
  have hmem : level ∈ e.spine := by
    cases e <;> simp_all [Expr.level, Expr.spine]
  exact Nat.le_of_lt (Nat.lt_of_lt_of_le hlt (hspine level hmem))

/-- A call of the parser on an operand. -/
theorem Climbs.operand {e : Expr} (h : Climbs ops e) {levels minimum : Nat} {ts rest : List Token}
    (htokens : ts.map (lexeme ops) = e.flatten) (hprecedes : e.Precedes) (hplaced : e.NotPlaced)
    (hnesting : e.nesting ≤ levels) (hspine : ∀ power ∈ e.spine, minimum ≤ power)
    (hnot : e.IsNot → minimum ≤ isBindingPower) (hstops : Stops minimum rest) :
    Returns ops levels minimum e ts rest :=
  h.returns ⟨htokens, hprecedes, hplaced, hnesting, hspine, closes_of_stops hspine hnot hstops⟩
    hstops

/-- After what stands in front of the first operator of the spine, the loop begins. -/
theorem climbs_of_prefix {levels minimum : Nat} {ts rest : List Token} {e : Expr}
    (e' : Spanned.Expr)
    (herase : e'.erase = e)
    (h : parsePrefixExpression ops (parseExpression ops levels) (ts ++ rest) = .ok (e', rest)) :
    ∃ (e' : Spanned.Expr) (turns : Nat), e'.erase = e ∧ rest.length ≤ turns ∧
      parseExpression ops (levels + 1) minimum (ts ++ rest) =
        operatorLoop (parseExpression ops levels) minimum turns e' rest := by
  refine ⟨e', rest.length, herase, Nat.le_refl _, ?_⟩
  rw [parseExpression, run_bind h]
  rfl

/-- An operand that begins with no operator. -/
theorem parsePrefix_primary (h : ∀ operator : UnaryOperator, t.kind ≠ operator.token)
    (heof : t.kind ≠ .eof) :
    parsePrefixExpression ops sub (t :: rest) = primaryFrom ops sub t rest := by
  have hnone : unaryOperator t.kind = none := by
    cases hoperator : unaryOperator t.kind with
    | none => rfl
    | some found => exact absurd (unaryOperator_eq_some.mp hoperator).1 (h _)
  rw [parsePrefixExpression, run_kind, current_cons, hnone]
  exact run_bind (run_advance heof)

/-- **Every expression** is climbed to, by induction on it. -/
theorem climbs (e : Expr) : Climbs ops e := by
  induction e with
  | identifier name =>
    intro levels minimum ts rest h
    obtain ⟨t, rfl, ht⟩ := List.map_eq_singleton_iff.mp h.tokens
    have hkind := kind_of_lexeme ht
    refine climbs_of_prefix (.identifier ⟨name.value, name.quoted, t.span⟩) rfl ?_
    rw [List.singleton_append,
      parsePrefix_primary (by intro operator; cases operator <;> simp [hkind,
      UnaryOperator.token]) (by simp [hkind]), primaryFrom, hkind]
    rfl
  | literal value =>
    intro levels minimum ts rest h
    obtain ⟨t, rfl, ht⟩ := List.map_eq_singleton_iff.mp h.tokens
    have hvalue := literalOf_of_lexeme ht
    have hkind : ∀ kind, Spanned.literalOf ops kind = none → t.kind ≠ kind := by
      rintro kind hnone rfl
      rw [hnone] at hvalue
      cases hvalue
    refine climbs_of_prefix (.literal value t.span) rfl ?_
    rw [List.singleton_append, parsePrefix_primary
      (fun operator => hkind _ (by cases operator <;> rfl)) (hkind _ rfl),
      primaryFrom_literal hvalue]
    rfl
  | unary operator e ih =>
    intro levels minimum ts rest h
    obtain ⟨t, ts, rfl, ht, hts⟩ := List.map_eq_cons_iff.mp h.tokens
    have hkind := kind_of_lexeme ht
    have heof : t.kind ≠ .eof := by cases operator <;> simp [hkind, UnaryOperator.token]
    have hplaced : e.NotPlaced ∧ (e.IsNot → operator.power ≤ isBindingPower) := by
      have hplaced := h.placed
      cases operator with
      | not => exact ⟨hplaced, fun _ => Nat.le_refl _⟩
      | _ => exact ⟨hplaced.1, fun he => absurd he hplaced.2⟩
    obtain ⟨e', herase, hrun⟩ := ih.operand hts h.precedes.1 hplaced.1
      (Nat.le_of_succ_le_succ h.nesting) h.precedes.2 hplaced.2 h.closes
    refine climbs_of_prefix (.unary operator e' (t.span.join e'.span))
      (by rw [Spanned.Expr.erase, herase]) ?_
    rw [List.cons_append, parsePrefixExpression, run_kind, current_cons,
      unaryOperator_eq_some.mpr ⟨hkind, rfl⟩]
    simp only
    rw [run_bind (run_advance heof), run_bind hrun]
    rfl
  | binary left operator right ihleft ihright =>
    intro levels minimum ts rest h
    obtain ⟨u, v, rfl, hu, hv⟩ := List.map_eq_append_iff.mp h.tokens
    obtain ⟨t, v, rfl, ht, hv⟩ := List.map_eq_cons_iff.mp hv
    have hkind := kind_of_lexeme ht
    have hspine := List.forall_mem_cons.mp h.spine
    obtain ⟨hleft, hright, hcloses, hrightSpine⟩ := h.precedes
    have hnesting : left.nesting ≤ levels + 1 ∧ right.nesting + 1 ≤ levels + 1 :=
      max_le_iff.mp h.nesting
    -- the left operand is not added to by this operator, nor the right one by the next
    obtain ⟨left', turns, herase, hturns, hrun⟩ := ihleft levels minimum u (t :: (v ++ rest))
      ⟨hu, hleft, h.placed.1, hnesting.1, hspine.2, fun power hpower => by
        rw [current_cons, hkind, nextPower_token] at hpower
        cases hpower
        exact hcloses⟩
    obtain ⟨right', herase', hrun'⟩ :=
      @Climbs.operand _ _ ihright levels (operator.power + 1) v rest hv
      hright h.placed.2.1 (Nat.le_of_succ_le_succ hnesting.2) hrightSpine
      (fun hnot => Expr.power_lt_of_not h.placed (.inr hnot))
      fun power hpower => Nat.lt_succ_of_le (h.closes power hpower)
    obtain ⟨turns, rfl⟩ : ∃ n, turns = n + 1 := ⟨turns - 1, by simp at hturns; omega⟩
    refine ⟨.binary left' operator right' (left'.span.join right'.span), turns, ?_, ?_, ?_⟩
    · rw [Spanned.Expr.erase, herase, herase']
    · simp only [List.length_cons, List.length_append] at hturns
      omega
    · rw [List.append_assoc, List.cons_append, hrun, operatorLoop_binary hkind hspine.1 hrun']
  | isNull e negated ih =>
    intro levels minimum ts rest h
    obtain ⟨u, v, rfl, hu, hv⟩ := List.map_eq_append_iff.mp h.tokens
    have hspine := List.forall_mem_cons.mp h.spine
    have hcurrent : (current (v ++ rest)).kind = .keyword .is := by
      obtain ⟨is, v, rfl, his, -⟩ := List.map_eq_cons_iff.mp hv
      exact kind_of_lexeme his
    obtain ⟨e', turns, herase, hturns, hrun⟩ := ih levels minimum u (v ++ rest)
      ⟨hu, h.precedes.1, h.placed.1, h.nesting, hspine.2, fun power hpower => by
        rw [hcurrent, nextPower_is] at hpower
        cases hpower
        exact h.precedes.2⟩
    have hpos : 0 < v.length := by
      rw [← List.length_map (lexeme ops), hv]
      exact Nat.succ_pos _
    rw [List.length_append] at hturns
    obtain ⟨turns, rfl⟩ : ∃ n, turns = n + 1 := ⟨turns - 1, by omega⟩
    obtain ⟨span, hloop⟩ := operatorLoop_isNull hv hspine.1
    refine ⟨.isNull e' negated span, turns, by rw [Spanned.Expr.erase, herase], by omega, ?_⟩
    rw [List.append_assoc, hrun, hloop]
  | parenthesized e ih =>
    intro levels minimum ts rest h
    obtain ⟨t, ts, rfl, ht, hts⟩ := List.map_eq_cons_iff.mp h.tokens
    obtain ⟨ts, close, rfl, hinner, hclose⟩ := List.map_eq_append_iff.mp hts
    obtain ⟨close, rfl, hlexeme⟩ := List.map_eq_singleton_iff.mp hclose
    have hkind := kind_of_lexeme ht
    have hclose := kind_of_lexeme hlexeme
    obtain ⟨e', herase, hrun⟩ :=
      @Climbs.operand _ _ ih levels 0 ts (close :: rest) hinner h.precedes
      h.placed (Nat.le_of_succ_le_succ h.nesting) (fun _ _ => Nat.zero_le _)
      (fun _ => Nat.zero_le _)
      fun power hpower => by
        rw [current_cons, hclose] at hpower
        cases hpower
    refine climbs_of_prefix (.parenthesized e' (t.span.join close.span))
      (by rw [Spanned.Expr.erase, herase]) ?_
    have htokens : t :: (ts ++ [close]) ++ rest = t :: (ts ++ close :: rest) := by simp
    rw [htokens, parsePrefix_primary (by intro operator; cases operator <;> simp [hkind,
      UnaryOperator.token]) (by simp [hkind]), primaryFrom, hkind]
    simp only
    rw [run_bind hrun, run_bind (run_expect hclose (by simp))]
    rfl

instance : Source (fun _ => True) (fun _ => True) where
  current _ := trivial
  tail _ _ := trivial

end Parser

/-- What `parse_expression` returns from a list of tokens is a tree of the tokens that it
consumed, which keeps to the precedence of operators; and every such tree is returned from its
tokens, if NOT stands in it where AND, OR, NOT or parentheses are around it and no more calls
are nested than the parser allows. -/
theorem expression_faithful (ops : TextOps) :
    (∀ tokens e rest, Parser.expression ops tokens = .ok (e, rest) →
      ∃ consumed, tokens = consumed ++ rest ∧ consumed.map (lexeme ops) = e.erase.flatten ∧
        e.erase.Precedes) ∧
    (∀ e : Expr, e.Respects → e.NotPlaced → e.Precedes) ∧
    ∀ (e : Expr) (tokens rest : List Token), tokens.map (lexeme ops) = e.flatten → e.Precedes →
      e.NotPlaced → e.nesting ≤ Parser.maxExpressionDepth →
      Parser.nextPower (Parser.current rest).kind = none →
      ∃ e' : Spanned.Expr,
      e'.erase = e ∧ Parser.expression ops (tokens ++ rest) = .ok (e', rest) := by
  refine ⟨fun tokens e rest h => ?_, fun e => Expr.Respects.precedes, ?_⟩
  · have hreads := @Parser.reads_parseExpression (fun _ => True) (fun _ => True) _ ops
      Parser.maxExpressionDepth 0 fun _ => True
    obtain ⟨-, consumed, hconsumed, hparsed, -⟩ := hreads.ok trivial trivial h
    exact ⟨consumed, hconsumed, hparsed.spells.flatten, hparsed.precedes⟩
  · intro e tokens rest htokens hprecedes hplaced hnesting hnext
    refine (Parser.climbs e).returns
      ⟨htokens, hprecedes, hplaced, hnesting, fun _ _ => Nat.zero_le _,
      fun power hpower => ?_⟩ fun power hpower => ?_
    all_goals
      rw [hnext] at hpower
      cases hpower

/-- The tokens of `a IS NULL * b`. -/
def isNullTimes : List Token :=
  [⟨.identifier "a" false, ⟨0, 1⟩⟩, ⟨.keyword .is, ⟨2, 4⟩⟩, ⟨.keyword .null, ⟨5, 9⟩⟩,
    ⟨.star, ⟨10, 11⟩⟩,
    ⟨.identifier "b" false, ⟨12, 13⟩⟩, ⟨.eof, ⟨13, 13⟩⟩]

/-- IS NULL stands behind its operand, so that an operator behind it takes all of it to its
left even if it binds tighter. -/
theorem isNull_left_of_multiply :
    ∃ e rest, Parser.expression .ascii isNullTimes = .ok (e, rest) ∧ ¬e.erase.Respects := by
  refine ⟨.binary (.isNull (.identifier ⟨"a", false, ⟨0, 1⟩⟩) false ⟨0, 9⟩) .multiply
    (.identifier ⟨"b", false, ⟨12, 13⟩⟩) ⟨0, 13⟩, [⟨.eof, ⟨13, 13⟩⟩], rfl, fun h => ?_⟩
  exact absurd (h.2.2.1 5 rfl) (by decide)

end QuantaDb.Syntax
