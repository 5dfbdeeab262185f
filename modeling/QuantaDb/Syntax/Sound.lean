import QuantaDb.Syntax.Grammar

/-!
# QuantaDb.Syntax.Sound

What the parser returns spells the tokens that it consumed, its expressions keep to the
precedence of operators, and its errors are at a token of the text.
-/

namespace QuantaDb.Syntax.Parser

open Parsing Spanned

/-! ## tokens -/

/-- What holds of the tokens still to be read as long as a parser reads them, and of every
token that a parser comes to. -/
class Source (I : List Token → Prop) (P : Token → Prop) : Prop where
  current {rest : List Token} : I rest → P (current rest)
  tail {t : Token} {rest : List Token} : I (t :: rest) → t.kind ≠ .eof → I rest

/-- An error at a token. -/
def Blames (P : Token → Prop) (e : SyntaxError) : Prop := ∃ t, P t ∧ e.span = t.span

/-- What a parser returns and which tokens it consumes. -/
abbrev Parses {α : Type} (I : List Token → Prop) (P : Token → Prop) (C : List Token → Prop)
    (p : Parser α) (S : α → List Token → Prop) : Prop :=
  Parsing.Reads I (Blames P) C p fun a ts _ => S a ts

section words

variable {I : List Token → Prop} {P : Token → Prop} [Source I P] {C : List Token → Prop}
  {α : Type}

/-- `advance` takes a token, except at the end. -/
theorem reads_advance :
    Parses I P C advance fun t ts => P t ∧ (t.kind ≠ .eof → ts = [t]) := by
  intro rest hI _
  have hP : P (current rest) := Source.current hI
  by_cases heof : (current rest).kind = .eof
  · change ReadsAt _ _ _ _ (.ok (_, if _ then _ else _))
    rw [if_pos heof]
    exact ⟨hI, [], rfl, hP, fun h => absurd heof h⟩
  · change ReadsAt _ _ _ _ (.ok (_, if _ then _ else _))
    rw [if_neg heof]
    cases rest with
    | nil => exact absurd rfl heof
    | cons t rest => exact ⟨Source.tail P hI heof, [t], rfl, hP, fun _ => rfl⟩

/-- Reading a token that was looked at before. -/
theorem reads_advance_kind {kind : TokenKind} (hC : ∀ rest, C rest → (current rest).kind = kind)
    (hkind : kind ≠ .eof) : Parses I P C advance fun t ts => P t ∧ Is kind t ts := by
  intro rest hI hrest
  have hcurrent := hC rest hrest
  obtain ⟨hI', ts, hts, hP, hone⟩ := @reads_advance I P _ C rest hI hrest
  exact ⟨hI', ts, hts, hP, hcurrent, hone fun h => hkind (hcurrent.symm.trans h)⟩

theorem reads_advance_of {kind : TokenKind} (hC : ∀ rest, C rest → (current rest).kind = kind)
    (hkind : kind ≠ .eof) : Parses I P C advance (Is kind) :=
  (reads_advance_kind hC hkind).mono fun _ _ _ h => h.2

theorem reads_errorCurrent {message : String} {S : α → List Token → List Token → Prop} :
    Parsing.Reads I (Blames P) C (errorCurrent message) S :=
  fun _ hI _ => ⟨_, Source.current hI, rfl⟩

omit [Source I P] in
theorem reads_fail {message : String} {t : Token} {S : α → List Token → List Token → Prop}
    (h : P t) :
    Parsing.Reads I (Blames P) C (fail message t) S :=
  fun _ _ _ => ⟨t, h, rfl⟩

/-- `expect` takes a token of its kind. -/
theorem reads_expect {kind : TokenKind} {message : String} (hkind : kind ≠ .eof) :
    Parses I P C (expect kind message) (Is kind) := by
  intro rest hI hC
  unfold expect
  split
  · rename_i h
    exact @reads_advance_of I P _ (fun rest => (current rest).kind = kind) kind (fun _ h => h) hkind
      rest hI h
  · exact @reads_errorCurrent I P _ C _ message _ rest hI hC

theorem reads_expectKeyword {keyword : Keyword} :
    Parses I P C (expectKeyword keyword) (Is (.keyword keyword)) :=
  reads_expect (by simp)

/-- `consume` takes one if it is there. -/
theorem reads_consume {kind : TokenKind} (hkind : kind ≠ .eof) :
    Parses I P C (consume kind) (Optional (Is kind)) := by
  intro rest hI hC
  unfold consume
  split
  · rename_i h
    exact @reads_advance_of I P _ (fun rest => (current rest).kind = kind) kind (fun _ h => h) hkind
      rest hI h
  · exact ⟨hI, [], rfl, rfl⟩

theorem flag_of_optional {kind : TokenKind} {found : Option Token} {ts : List Token}
    (h : Optional (Is kind) found ts) : Flag [word kind] found.isSome ts := by
  cases found with
  | none => exact h
  | some t => exact ⟨ts, [], by simp, h.word, rfl⟩

omit [Source I P] in
/-- Looking at the next kind splits the cases. -/
theorem reads_kind {f : TokenKind → Parser α} {S : α → List Token → List Token → Prop}
    (hf : ∀ k, Parsing.Reads I (Blames P) (fun rest => C rest ∧ (current rest).kind = k) (f k) S) :
    Parsing.Reads I (Blames P) C (kind >>= f) S :=
  Parsing.Reads.peek hf

variable {S : α → List Token → Prop}

/-- Items with commas between them. -/
theorem reads_separated {item : Parser α} (hitem : ∀ C, Parses I P C item S) (turns : Nat) :
    ∀ C, Parses I P C (separated item turns) (Commas S) := by
  induction turns with
  | zero =>
    intro C
    refine (hitem _).seq fun a u hu => .pure fun _ _ => ?_
    rw [List.append_nil]
    exact .one hu
  | succ turns ih =>
    intro C
    refine (hitem _).seq fun a u hu => (reads_consume (by simp)).seq fun comma v hv => ?_
    refine .ite (fun hnone => .pure fun _ _ => ?_) fun hsome =>
      (ih _).seq fun as w hw => .pure fun _ _ => ?_
    · rw [Option.isNone_iff_eq_none] at hnone
      subst hnone
      rw [show v = [] from hv, List.append_nil, List.append_nil]
      exact .one hu
    · obtain ⟨t, rfl⟩ := Option.ne_none_iff_exists'.mp (mt Option.isNone_iff_eq_none.mpr hsome)
      rw [List.append_nil]
      exact .cons hu hv.word hw

theorem reads_commaSeparated {item : Parser α} (hitem : ∀ C, Parses I P C item S) :
    Parses I P C (commaSeparated item) (Commas S) :=
  .ofLength fun turns => reads_separated hitem turns _

/-- `parse_identifier` accepts names, quoted or not. -/
theorem reads_parseIdentifier : Parses I P C parseIdentifier Identifier.Spells := by
  refine reads_advance.seq fun t u hu => ?_
  split
  · rename_i value quoted hkind
    refine .pure fun _ _ => ⟨t, ⟨hkind, ?_⟩, rfl⟩
    rw [hu.2 (by simp [hkind]), List.append_nil]
  · exact reads_fail hu.1

end words

/-! ## expressions -/

/-- What follows is not an operator that binds as tight as `minimum`. -/
def Stops (minimum : Nat) (rest : List Token) : Prop :=
  ∀ power, nextPower (current rest).kind = some power → power < minimum

/-- What a call of `parse_expression` returns. -/
structure Parsed (ops : TextOps) (levels minimum : Nat) (e : Spanned.Expr) (ts : List Token) :
    Prop where
  spells : e.Spells ops ts
  precedes : e.erase.Precedes
  nesting : e.erase.nesting ≤ levels
  spine : ∀ power ∈ e.erase.spine, minimum ≤ power

/-- An expression that the loop of operators goes on from: no operand of it takes the next
operator. -/
def Open (e : Spanned.Expr) (rest : List Token) : Prop :=
  ∀ power, nextPower (current rest).kind = some power → e.erase.Closes power

section expressions

variable {I : List Token → Prop} {P : Token → Prop} [Source I P] {C : List Token → Prop}
  {ops : TextOps} {levels : Nat} {sub : Nat → Parser Spanned.Expr}

/-- A tree that ends with no operator stands at any level. -/
theorem Parsed.primary {minimum : Nat} {e : Spanned.Expr} {ts : List Token} (h : e.Spells ops ts)
    (hprecedes : e.erase.Precedes) (hnesting : e.erase.nesting ≤ levels)
    (hspine : e.erase.spine = []) :
    Parsed ops levels minimum e ts :=
  ⟨h, hprecedes, hnesting, by simp [hspine]⟩

/-- What the parsers of expressions rely on: the calls that are nested in them. -/
abbrev Nested (I : List Token → Prop) (P : Token → Prop) (ops : TextOps) (levels : Nat)
    (sub : Nat → Parser Spanned.Expr) : Prop :=
  ∀ minimum C, Parsing.Reads I (Blames P) C (sub minimum) fun e ts rest =>
    Parsed ops levels minimum e ts ∧ Stops minimum rest

/-- `parse_primary` accepts literals, columns, and parenthesised expressions. -/
theorem reads_primaryFrom (hsub : Nested I P ops levels sub) {t : Token} {u : List Token} (hP : P t)
    (hu : t.kind ≠ .eof → u = [t]) (minimum : Nat) :
    Parsing.Reads I (Blames P) C (primaryFrom ops sub t) fun e v rest =>
      Parsed ops (levels + 1) minimum e (u ++ v) ∧ Open e rest := by
  have hliteral : ∀ value, literalOf ops t.kind = some value →
      Parsing.Reads I (Blames P) C (pure (.literal value t.span)) fun e v rest =>
        Parsed ops (levels + 1) minimum e (u ++ v) ∧ Open e rest := by
    intro value hvalue
    have hone : u = [t] := hu (by rintro h; rw [h] at hvalue; cases hvalue)
    refine .pure fun rest _ => ⟨?_, fun _ _ => trivial⟩
    rw [hone, List.append_nil]
    exact .primary (.literal hvalue) trivial (Nat.le_add_left 1 levels) rfl
  unfold primaryFrom
  split
  · rename_i value quoted hkind
    refine .pure fun rest _ => ⟨?_, fun _ _ => trivial⟩
    rw [hu (by simp [hkind]), List.append_nil]
    exact .primary (.identifier ⟨t, ⟨hkind, rfl⟩, rfl⟩) trivial (Nat.le_add_left 1 levels) rfl
  · rename_i value hkind
    exact hliteral _ (by rw [hkind]; rfl)
  · rename_i raw hkind
    split
    · rename_i value hvalue
      exact hliteral _ (by rw [hkind, literalOf, hvalue]; rfl)
    · exact reads_fail hP
  · rename_i hkind
    exact hliteral _ (by rw [hkind]; rfl)
  · rename_i hkind
    exact hliteral _ (by rw [hkind]; rfl)
  · rename_i hkind
    exact hliteral _ (by rw [hkind]; rfl)
  · rename_i hkind
    have hone : u = [t] := hu (by simp [hkind])
    refine (hsub 0 C).bind fun e v => .assume (fun _ h => h.1.1) fun he => ?_
    refine (reads_expect (by simp)).seq fun close w hw => .pure fun rest _ => ?_
    refine ⟨?_, fun _ _ => trivial⟩
    have hspan : t.span.join close.span = spanOf ([t] ++ (v ++ [close])) :=
      join_eq_spanOf (by simp) rfl (((ends_singleton close).append v).append [t])
    rw [hone, hw.2, List.append_nil, hspan]
    exact .primary (.parenthesized hkind he.spells hw.1) he.precedes
      (Nat.succ_le_succ he.nesting) rfl
  · exact reads_fail hP

/-- Prefix operators, or a primary expression. -/
theorem reads_parsePrefixExpression (hsub : Nested I P ops levels sub) (minimum : Nat) :
    Parsing.Reads I (Blames P) C (parsePrefixExpression ops sub) fun e ts rest =>
      Parsed ops (levels + 1) minimum e ts ∧ Open e rest := by
  refine reads_kind fun k => ?_
  split
  · rename_i operator power hoperator
    obtain ⟨rfl, rfl⟩ := unaryOperator_eq_some.mp hoperator
    have hkind : operator.token ≠ .eof := by cases operator <;> simp [UnaryOperator.token]
    refine (reads_advance_of (fun _ h => h.2) hkind).seq fun t u hu => ?_
    refine (hsub operator.power _).bind fun e v => .assume (fun _ h => h.1.1) fun he =>
      .pure fun rest hrest => ?_
    refine ⟨?_, hrest.1.2⟩
    have hspan : t.span.join e.span = spanOf ([t] ++ v) :=
      join_eq_spanOf (by simp) rfl (he.spells.ends.append [t])
    rw [hu.2, List.append_nil, hspan]
    exact .primary (.unary (by rw [hu.1]; exact hoperator) he.spells) ⟨he.precedes, he.spine⟩
      (Nat.succ_le_succ he.nesting) rfl
  · exact reads_advance.seq fun t u hu => reads_primaryFrom hsub hu.1 hu.2 minimum

variable {left : Spanned.Expr} {minimum : Nat} {u : List Token}

/-- `IS NULL` and `IS NOT NULL` behind their operand. -/
theorem reads_isNullSuffix (hleft : Parsed ops (levels + 1) minimum left u)
    (hminimum : minimum ≤ isBindingPower) (hC : ∀ rest, C rest → (current rest).kind = .keyword .is)
    (hopen : ∀ rest, C rest → Open left rest) :
    Parsing.Reads I (Blames P) C (isNullSuffix left) fun e v rest =>
      (Parsed ops (levels + 1) minimum e (u ++ v) ∧ Open e rest) ∧ v ≠ [] := by
  refine .assume (P := left.erase.Closes isBindingPower) (fun rest h => hopen rest h _ ?_)
    fun hcloses => ?_
  · rw [hC rest h]
    rfl
  refine (reads_advance_of hC (by simp)).seq fun is v₁ hv₁ => ?_
  refine (reads_consume (by simp)).seq fun negation v₂ hv₂ => ?_
  refine reads_expectKeyword.seq fun null v₃ hv₃ => .pure fun rest _ => ?_
  rw [List.append_nil]
  refine ⟨⟨?_, fun _ _ => trivial⟩, by simp [hv₁.2]⟩
  have hspan : left.span.join null.span = spanOf (u ++ (v₁ ++ (v₂ ++ v₃))) :=
    join_eq_spanOf hleft.spells.span.1 hleft.spells.span.2
      (((hv₃.ends.append v₂).append v₁).append u)
  rw [hspan]
  exact
    { spells := .isNull hleft.spells
        ⟨v₁, _, rfl, hv₁.word, v₂, _, rfl, flag_of_optional hv₂, v₃, [], by simp, hv₃.word, rfl⟩
      precedes := ⟨hleft.precedes, hcloses⟩
      nesting := hleft.nesting
      spine := List.forall_mem_cons.mpr ⟨hminimum, hleft.spine⟩ }

/-- An operator and its right side behind its left side. -/
theorem reads_binarySuffix (hsub : Nested I P ops levels sub)
    (hleft : Parsed ops (levels + 1) minimum left u) {operator : BinaryOperator}
    (hminimum : minimum ≤ operator.power)
    (hC : ∀ rest, C rest → (current rest).kind = operator.token)
    (hopen : ∀ rest, C rest → Open left rest) :
    Parsing.Reads I (Blames P) C (binarySuffix sub left operator (operator.power + 1))
    fun e v rest =>
      (Parsed ops (levels + 1) minimum e (u ++ v) ∧ Open e rest) ∧ v ≠ [] := by
  refine .assume (P := left.erase.Closes operator.power) (fun rest h => hopen rest h _ ?_)
    fun hcloses => ?_
  · rw [hC rest h]
    exact nextPower_token operator
  have hkind : operator.token ≠ .eof := by cases operator <;> simp [BinaryOperator.token]
  refine (reads_advance_of hC hkind).seq fun t v₁ hv₁ => ?_
  refine (hsub _ _).bind fun right v₂ => .assume (fun _ h => h.1.1) fun hright =>
    .pure fun rest hrest => ?_
  rw [hv₁.2, List.append_nil]
  have hspan : left.span.join right.span = spanOf (u ++ ([t] ++ v₂)) :=
    join_eq_spanOf hleft.spells.span.1 hleft.spells.span.2
      ((hright.spells.ends.append [t]).append u)
  rw [hspan]
  refine ⟨⟨?_, fun power hpower => Nat.le_of_lt_succ (hrest.1.2 power hpower)⟩, by simp⟩
  exact
    { spells := .binary hleft.spells (by rw [hv₁.1, binaryOperator_eq_some]; exact ⟨rfl, rfl⟩)
        hright.spells
      precedes := ⟨hleft.precedes, hright.precedes, hcloses, fun power h => hright.spine power h⟩
      nesting := max_le hleft.nesting (Nat.succ_le_succ hright.nesting)
      spine := List.forall_mem_cons.mpr ⟨hminimum, hleft.spine⟩ }

/-- Each turn of the loop adds an operator to the spine; it ends when the next one binds
less than `minimum`. -/
theorem reads_operatorLoop (hsub : Nested I P ops levels sub) (turns : Nat) :
    ∀ left u, Parsed ops (levels + 1) minimum left u → ∀ C : List Token → Prop,
      (∀ rest, C rest → Open left rest ∧ rest.length ≤ turns) →
      Parsing.Reads I (Blames P) C (operatorLoop sub minimum turns left) fun e v rest =>
        Parsed ops (levels + 1) minimum e (u ++ v) ∧ Stops minimum rest := by
  induction turns with
  | zero =>
    intro left u hleft C hC
    refine .pure fun rest hrest => ⟨by rwa [List.append_nil], ?_⟩
    -- nothing is left to read
    have hnil := (hC rest hrest).2
    rw [Nat.le_zero, List.length_eq_zero_iff] at hnil
    intro power hpower
    rw [hnil] at hpower
    cases hpower
  | succ turns ih =>
    intro left u hleft C hC
    refine reads_kind fun k => ?_
    have hopen : ∀ rest, (C rest ∧ (current rest).kind = k) → Open left rest :=
      fun rest h => (hC rest h.1).1
    -- what a turn that adds an operator leaves to the turns behind it
    have hnext : ∀ (p : Parser Spanned.Expr),
        Parsing.Reads I (Blames P) (fun rest => C rest ∧ (current rest).kind = k) p (fun e v rest =>
          (Parsed ops (levels + 1) minimum e (u ++ v) ∧ Open e rest) ∧ v ≠ []) →
        Parsing.Reads I (Blames P) (fun rest => C rest ∧ (current rest).kind = k)
          (p >>= operatorLoop sub minimum turns) fun e v rest =>
            Parsed ops (levels + 1) minimum e (u ++ v) ∧ Stops minimum rest := by
      intro p hp
      refine hp.bind fun e v => .assume (fun _ h => And.intro h.1.1.1 h.1.2) fun he => ?_
      refine (ih e (u ++ v) he.1 _ fun rest hrest => ⟨hrest.1.1.2, ?_⟩).mono
        fun e' w rest h => by rwa [List.append_assoc] at h
      have hlength := (hC _ hrest.2.1).2
      have hpos := List.length_pos_iff.mpr he.2
      rw [List.length_append] at hlength
      omega
    refine .ite (fun his => ?_) fun his => ?_
    · subst his
      refine .ite (fun hlt => .pure fun rest hrest => ?_) fun hle => ?_
      · refine ⟨by rwa [List.append_nil], fun power hpower => ?_⟩
        rw [hrest.2, nextPower_is] at hpower
        cases hpower
        exact hlt
      · exact hnext _ (reads_isNullSuffix hleft (Nat.le_of_not_lt hle) (fun _ h => h.2) hopen)
    · split
      · rename_i hnone
        refine .pure fun rest hrest => ⟨by rwa [List.append_nil], fun power hpower => ?_⟩
        rw [hrest.2, nextPower, if_neg his, hnone] at hpower
        cases hpower
      · rename_i operator leftPower rightPower hoperator
        obtain ⟨rfl, hpowers⟩ := binaryOperator_eq_some.mp hoperator
        cases hpowers
        refine .ite (fun hlt => .pure fun rest hrest => ?_) fun hle => ?_
        · refine ⟨by rwa [List.append_nil], fun power hpower => ?_⟩
          rw [hrest.2, nextPower_token] at hpower
          cases hpower
          exact hlt
        · exact hnext _ (reads_binarySuffix hsub hleft (Nat.le_of_not_lt hle)
            (fun _ h => h.2) hopen)

/-- **`parse_expression`** accepts what binds as tightly as asked, by induction on the levels
left. -/
theorem reads_parseExpression (levels : Nat) :
    Nested I P ops levels (parseExpression ops levels) := by
  induction levels with
  | zero => exact fun minimum C => reads_errorCurrent
  | succ levels ih =>
    intro minimum C
    refine (reads_parsePrefixExpression ih minimum).bind fun left u =>
      .assume (fun _ h => h.1.1) fun hleft => ?_
    exact .ofLength fun turns =>
      reads_operatorLoop ih turns left u hleft _ fun rest h => ⟨h.1.1.2, h.2⟩

/-- At the top every operator may stand. -/
theorem reads_expression : Parses I P C (expression ops) (Spanned.Expr.Stands ops) :=
  (reads_parseExpression maxExpressionDepth 0 C).mono fun _ _ _ h =>
    ⟨h.1.spells, h.1.precedes, h.1.nesting⟩

end expressions

end QuantaDb.Syntax.Parser
