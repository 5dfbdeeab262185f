import QuantaDb.Syntax.Sound

/-!
# QuantaDb.Syntax.StatementSound

The statements that the parser returns spell the tokens that it consumed.
-/

namespace QuantaDb.Syntax.Parser

open Parsing Spanned

variable {I : List Token → Prop} {P : Token → Prop} [Source I P] {C : List Token → Prop}

/-- A branch on whether a token could be consumed. -/
theorem reads_when {α : Type} {kind : TokenKind} (hkind : kind ≠ .eof) {p q : Parser α}
    {S : α → List Token → Prop}
    (hp : ∀ u, word kind u → Parses I P (fun _ => True) p fun a v => S a (u ++ v))
    (hq : Parses I P (fun _ => True) q S) :
    Parses I P C (consume kind >>= fun found => if found.isSome then p else q) S := by
  refine (reads_consume hkind).seq fun found u hu => ?_
  cases found with
  | none =>
    rw [show u = [] from hu]
    exact hq
  | some t => exact hp u hu.word

/-! ## tables and indexes -/

omit [Source I P] in
/-- The length of `VARCHAR` is a positive number of 32 bits. -/
theorem reads_varcharLength {t : Token} (hP : P t) :
    Parses I P C (varcharLength t) fun length v =>
      v = [] ∧ ∃ raw n, t.kind = .number raw ∧ decimal raw = some n ∧ 0 < n ∧ n < 2 ^ 32 ∧
        length = UInt32.ofNat n := by
  unfold varcharLength
  split
  · rename_i raw hkind
    split
    · exact reads_fail hP
    · exact reads_fail hP
    · rename_i n hzero hn
      rw [Option.filter_eq_some_iff, decide_eq_true_eq] at hn
      have hpos : 0 < n := Nat.pos_of_ne_zero fun h => hzero (by simp [h] at *)
      exact .pure fun _ _ => ⟨rfl, raw, n, hkind, hn.1, hpos, hn.2, rfl⟩
  · exact reads_fail hP

variable {u : List Token}

/-- `VARCHAR`, with or without a length. -/
theorem reads_varchar {t : Token} (hu : Is (.keyword .varchar) t u) :
    Parses I P C (varchar t) fun read v => TypeSpells read.1 (u ++ v) ∧ Ends (u ++ v) read.2 := by
  refine reads_when (by simp) (fun v₁ hv₁ => ?_) (.pure fun _ _ => ?_)
  · refine reads_advance.seq fun t₂ v₂ hv₂ => ?_
    refine (reads_varcharLength hv₂.1).seq fun length v₃ hv₃ => ?_
    obtain ⟨rfl, raw, n, hkind, hn, hpos, hlt, rfl⟩ := hv₃
    refine (reads_expect (by simp)).seq fun close v₄ hv₄ => .pure fun _ _ => ?_
    simp only [List.nil_append]
    constructor
    · have htwo : word (.number raw) v₂ := ⟨t₂, hkind, hv₂.2 (by simp [hkind])⟩
      exact .varchar hn hpos hlt (.cons hu.word (.cons hv₁ (.cons htwo (.cons hv₄.word .nil))))
    · exact ((hv₄.ends.append_nil.append v₂).append v₁).append u
  · simp only [List.append_nil]
    exact ⟨.text (.inr hu.word), hu.ends⟩

/-- `parse_data_type` accepts the names of types. -/
theorem reads_parseDataType :
    Parses I P C parseDataType fun read ts => TypeSpells read.1 ts ∧ Ends ts read.2 := by
  refine reads_advance.seq fun t u hu => ?_
  have hword : ∀ keyword dataType, t.kind = .keyword keyword → TypeSpells dataType u →
      Parses I P (fun _ => True) (pure (dataType, t.span)) fun read v =>
        TypeSpells read.1 (u ++ v) ∧ Ends (u ++ v) read.2 := by
    intro keyword dataType hkind htype
    refine .pure fun _ _ => ?_
    simp only [List.append_nil]
    refine ⟨htype, ?_⟩
    rw [hu.2 (by simp [hkind])]
    exact ends_singleton t
  have hkey : ∀ keyword, t.kind = .keyword keyword → key keyword u :=
    fun keyword hkind => ⟨t, hkind, hu.2 (by simp [hkind])⟩
  split
  · rename_i hkind
    exact hword _ _ hkind (.boolean (.inl (hkey _ hkind)))
  · rename_i hkind
    exact hword _ _ hkind (.boolean (.inr (hkey _ hkind)))
  · rename_i hkind
    exact hword _ _ hkind (.int64 (.inl (hkey _ hkind)))
  · rename_i hkind
    exact hword _ _ hkind (.int64 (.inr (.inl (hkey _ hkind))))
  · rename_i hkind
    exact hword _ _ hkind (.int64 (.inr (.inr (hkey _ hkind))))
  · rename_i hkind
    exact hword _ _ hkind (.float64 (.inl (hkey _ hkind)))
  · rename_i hkind
    exact hword _ _ hkind (.float64 (.inr (hkey _ hkind)))
  · rename_i hkind
    exact hword _ _ hkind (.text (.inl (hkey _ hkind)))
  · rename_i hkind
    exact reads_varchar ⟨hkind, hu.2 (by simp [hkind])⟩
  · exact reads_fail hu.1

/-- What the loop over constraints makes of what it had read before. -/
structure ReadOn (read result : Constraints) (v : List Token) (constraints : List Constraint) :
    Prop where
  spells : Many Constraint.Spells constraints v
  primaryKey : result.primaryKey = (read.primaryKey || decide (.primaryKey ∈ constraints))
  unique : result.unique = (read.unique || decide (.unique ∈ constraints))
  nullable : result.nullable =
    (read.nullable && decide (.primaryKey ∉ constraints ∧ .notNull ∉ constraints))
  ends : ∀ u, Ends u read.stop → Ends (u ++ v) result.stop

/-- One more constraint in front. -/
theorem ReadOn.cons {read read' result : Constraints} {v : List Token} {constraint : Constraint}
    {cs : List Constraint} (h : ReadOn read' result v cs) (hu : constraint.Spells u)
    (hstop : Ends u read'.stop)
    (hprimary : read'.primaryKey = (read.primaryKey || decide (constraint = .primaryKey)))
    (hunique : read'.unique = (read.unique || decide (constraint = .unique)))
    (hnullable : read'.nullable =
      (read.nullable && decide (constraint ≠ .primaryKey ∧ constraint ≠ .notNull))) :
    ReadOn read result (u ++ v) (constraint :: cs) where
  spells := .cons hu h.spells
  primaryKey := by simp [h.primaryKey, hprimary, eq_comm, Bool.or_assoc]
  unique := by simp [h.unique, hunique, eq_comm, Bool.or_assoc]
  nullable := by
    rw [h.nullable, hnullable]
    cases constraint <;> simp
  ends front _ := by
    rw [← List.append_assoc]
    exact h.ends _ (hstop.append front)

/-- **The loop of constraints** reads some of them on, whatever was read before. -/
theorem reads_constraints (turns : Nat) :
    ∀ read : Constraints,
    (read.sawNullability = false → read.primaryKey = false → read.nullable = true) →
      ∀ C, Parses I P C (constraints turns read) fun result v => ∃ cs, ReadOn read result v cs := by
  have hdone : ∀ (read : Constraints) C, Parses I P C (pure read) fun result v =>
      ∃ cs, ReadOn read result v cs :=
    fun read C => .pure fun _ _ => ⟨[], .nil, by simp, by simp, by simp, by simp⟩
  induction turns with
  | zero => exact fun read _ C => hdone read C
  | succ turns ih =>
    intro read hread C
    refine reads_kind fun k => ?_
    split
    · refine (reads_advance_kind (fun _ h => h.2) (by simp)).seq fun t u hu => ?_
      refine .ite (fun _ => reads_fail hu.1) fun _ => ?_
      refine reads_expectKeyword.seq fun key v hv => ?_
      refine (ih _ (by simp) _).mono fun result w _ h => ?_
      obtain ⟨cs, h⟩ := h
      rw [← List.append_assoc]
      have hspells : Constraint.primaryKey.Spells (u ++ v) :=
        .cons hu.2.word ⟨v, [], by simp, hv.word, rfl⟩
      exact ⟨_, h.cons hspells (hv.ends.append u) (by simp) (by simp) (by simp)⟩
    · refine (reads_advance_kind (fun _ h => h.2) (by simp)).seq fun t u hu => ?_
      refine .ite (fun _ => reads_fail hu.1) fun _ => ?_
      refine reads_expectKeyword.seq fun null v hv => ?_
      refine (ih _ (by simp) _).mono fun result w _ h => ?_
      obtain ⟨cs, h⟩ := h
      rw [← List.append_assoc]
      have hspells : Constraint.notNull.Spells (u ++ v) :=
        .cons hu.2.word ⟨v, [], by simp, hv.word, rfl⟩
      exact ⟨_, h.cons hspells (hv.ends.append u) (by simp) (by simp) (by simp)⟩
    · refine (reads_advance_kind (fun _ h => h.2) (by simp)).seq fun t u hu => ?_
      refine .ite (fun _ => reads_fail hu.1) fun hnot => ?_
      simp only [Bool.or_eq_true, not_or, Bool.not_eq_true] at hnot
      refine (ih _ (by simp) _).mono fun result w _ h => ?_
      obtain ⟨cs, h⟩ := h
      have hnullable := hread hnot.1 hnot.2
      exact ⟨_, @ReadOn.cons _ _ _ _ _ .null _ h hu.2.word hu.2.ends (by simp) (by simp)
        (by simp [hnullable])⟩
    · refine (reads_advance_kind (fun _ h => h.2) (by simp)).seq fun t u hu => ?_
      refine .ite (fun _ => reads_fail hu.1) fun _ => ?_
      refine (ih { read with unique := true, stop := t.span } hread _).mono fun result w _ h => ?_
      obtain ⟨cs, h⟩ := h
      exact ⟨_, @ReadOn.cons _ _ _ _ _ .unique _ h hu.2.word hu.2.ends (by simp) (by simp)
        (by simp)⟩
    · exact hdone read _

/-- `parse_column_def` accepts what spells a column. -/
theorem reads_parseColumnDef : Parses I P C parseColumnDef ColumnDef.Spells := by
  refine reads_parseIdentifier.seq fun name u hu => ?_
  refine reads_parseDataType.seq fun dataType v hv => ?_
  refine Parsing.Reads.seq (.ofLength fun turns => reads_constraints turns _ (fun _ _ => rfl) _)
    fun read w hw => .pure fun _ _ => ?_
  obtain ⟨cs, hread⟩ := hw
  have hends : Ends (u ++ (v ++ (w ++ []))) read.stop := by
    rw [List.append_nil]
    exact (hread.ends v hv.2).append u
  refine ⟨cs, .cons hu (.cons hv.1 (.cons hread.spells .nil)), ?_, ?_, ?_, ?_⟩
  · simpa using hread.primaryKey
  · simpa using hread.unique
  · simpa using hread.nullable
  · exact join_eq_spanOf hu.span.1 hu.span.2 hends

theorem reads_ifNotExists : Parses I P C ifNotExists IfNotExists := by
  refine reads_when (by simp) (fun u hu => ?_) (.pure fun _ _ => rfl)
  refine reads_expectKeyword.seq fun _ v hv => reads_expectKeyword.seq fun _ w hw =>
    .pure fun _ _ => ?_
  exact .cons hu (.cons hv.word (.cons hw.word .nil))

theorem reads_ifExists : Parses I P C ifExists IfExists := by
  refine reads_when (by simp) (fun u hu => ?_) (.pure fun _ _ => rfl)
  exact reads_expectKeyword.seq fun _ v hv => .pure fun _ _ => .cons hu (.cons hv.word .nil)

/-- The columns of a table. -/
theorem reads_columnDefs : Parses I P C columnDefs (Commas ColumnDef.Spells) :=
  reads_kind fun _ => .ite (fun _ => reads_errorCurrent) fun _ =>
    reads_commaSeparated fun _ => reads_parseColumnDef

/-- `CREATE TABLE`, from behind `CREATE` on. -/
theorem reads_parseCreateTableAfterCreate {create : Token} (hu : Is (.keyword .create) create u) :
    Parses I P C (parseCreateTableAfterCreate create.span) fun table v =>
    table.Spells (u ++ v) := by
  refine reads_expectKeyword.seq fun _ u₁ h₁ => ?_
  refine reads_ifNotExists.seq fun flag u₂ h₂ => ?_
  refine reads_parseIdentifier.seq fun name u₃ h₃ => ?_
  refine (reads_expect (by simp)).seq fun _ u₄ h₄ => ?_
  refine reads_columnDefs.seq fun columns u₅ h₅ => ?_
  refine (reads_expect (by simp)).seq fun close u₆ h₆ => .pure fun _ _ => ⟨?_, hu.join ?_⟩
  · exact .cons hu.word (.cons h₁.word (.cons h₂ (.cons h₃ (.cons h₄.word (.cons h₅
      (.cons h₆.word .nil))))))
  · exact (((((h₆.ends.append_nil.append u₅).append u₄).append u₃).append u₂).append u₁).append u

/-- `CREATE INDEX` and `CREATE UNIQUE INDEX`, from there on. -/
theorem reads_parseCreateIndexAfterCreate {create : Token} {u' : List Token} {unique : Bool}
    (hu : Is (.keyword .create) create u) (hu' : Flag [key .unique] unique u') :
    Parses I P C (parseCreateIndexAfterCreate create.span unique) fun index v =>
      index.Spells (u ++ (u' ++ v)) := by
  refine reads_expectKeyword.seq fun _ u₁ h₁ => ?_
  refine reads_ifNotExists.seq fun flag u₂ h₂ => ?_
  refine reads_parseIdentifier.seq fun name u₃ h₃ => ?_
  refine reads_expectKeyword.seq fun _ u₄ h₄ => ?_
  refine reads_parseIdentifier.seq fun table u₅ h₅ => ?_
  refine (reads_expect (by simp)).seq fun _ u₆ h₆ => ?_
  refine (reads_commaSeparated fun _ => reads_parseIdentifier).seq fun columns u₇ h₇ => ?_
  refine (reads_expect (by simp)).seq fun close u₈ h₈ => .pure fun _ _ => ⟨?_, hu.join ?_⟩
  · exact .cons hu.word (.cons hu' (.cons h₁.word (.cons h₂ (.cons h₃ (.cons h₄.word (.cons h₅
      (.cons h₆.word (.cons h₇ (.cons h₈.word .nil)))))))))
  · exact ((((((((h₈.ends.append_nil.append u₇).append u₆).append u₅).append u₄).append
      u₃).append u₂).append u₁).append u').append u

variable {ops : TextOps}

/-- `parse_create_statement` accepts both. -/
theorem reads_parseCreateStatement :
    Parses I P C parseCreateStatement (Statement.Spells ops) := by
  refine reads_expectKeyword.seq fun create u hu => ?_
  refine (reads_consume (by simp)).seq fun unique v hv => reads_kind fun k => ?_
  refine .ite (fun h => ?_) fun _ => .ite (fun _ => ?_) fun _ =>
    .ite (fun _ => reads_errorCurrent) fun _ => reads_errorCurrent
  · rw [Option.isNone_iff_eq_none] at h
    obtain ⟨-, rfl⟩ := h
    rw [show v = [] from hv]
    refine (reads_parseCreateTableAfterCreate hu).seq fun table w hw => .pure fun _ _ => ?_
    rw [List.append_nil]
    exact hw
  · refine (reads_parseCreateIndexAfterCreate hu (flag_of_optional hv)).seq fun index w hw =>
      .pure fun _ _ => ?_
    rw [List.append_nil]
    exact hw

/-- `DROP TABLE`, from behind `DROP` on. -/
theorem reads_parseDropTableAfterDrop {drop : Token} (hu : Is (.keyword .drop) drop u) :
    Parses I P C (parseDropTableAfterDrop drop.span) fun table v => table.Spells (u ++ v) := by
  refine reads_expectKeyword.seq fun _ u₁ h₁ => ?_
  refine reads_ifExists.seq fun flag u₂ h₂ => ?_
  refine reads_parseIdentifier.seq fun name u₃ h₃ => .pure fun _ _ => ⟨?_, hu.join ?_⟩
  · exact .cons hu.word (.cons h₁.word (.cons h₂ (.cons h₃ .nil)))
  · exact ((h₃.ends.append_nil.append u₂).append u₁).append u

/-- `DROP INDEX`, from behind `DROP` on. -/
theorem reads_parseDropIndexAfterDrop {drop : Token} (hu : Is (.keyword .drop) drop u) :
    Parses I P C (parseDropIndexAfterDrop drop.span) fun index v => index.Spells (u ++ v) := by
  refine reads_expectKeyword.seq fun _ u₁ h₁ => ?_
  refine reads_ifExists.seq fun flag u₂ h₂ => ?_
  refine reads_parseIdentifier.seq fun name u₃ h₃ => .pure fun _ _ => ⟨?_, hu.join ?_⟩
  · exact .cons hu.word (.cons h₁.word (.cons h₂ (.cons h₃ .nil)))
  · exact ((h₃.ends.append_nil.append u₂).append u₁).append u

/-- `parse_drop_statement` accepts both. -/
theorem reads_parseDropStatement : Parses I P C parseDropStatement (Statement.Spells ops) := by
  refine reads_expectKeyword.seq fun drop u hu => reads_kind fun k => ?_
  refine .ite (fun _ => ?_) fun _ => .ite (fun _ => ?_) fun _ => reads_errorCurrent
  · refine (reads_parseDropTableAfterDrop hu).seq fun table v hv => .pure fun _ _ => ?_
    rw [List.append_nil]
    exact hv
  · refine (reads_parseDropIndexAfterDrop hu).seq fun index v hv => .pure fun _ _ => ?_
    rw [List.append_nil]
    exact hv

/-! ## transactions -/

/-- The word behind `BEGIN`, `COMMIT` or `ROLLBACK`, if there is one. -/
theorem reads_transactionOrWork {start : Token} (hu : Ends u start.span) :
    Parses I P C (transactionOrWork start.span) fun stop v =>
      TransactionOrWork v ∧ Ends (u ++ v) stop := by
  refine (reads_consume (by simp)).seq fun transaction v hv => ?_
  cases transaction with
  | some t =>
    refine .pure fun _ _ => ?_
    rw [List.append_nil]
    exact ⟨.inl hv.word, hv.ends.append u⟩
  | none =>
    rw [show v = [] from hv]
    refine (reads_consume (by simp)).seq fun work w hw => .pure fun _ _ => ?_
    rw [List.nil_append, List.append_nil]
    refine ⟨?_, hu.optional (fun _ _ h => Is.ends h) hw⟩
    cases work with
    | none => exact .inr (.inr hw)
    | some t => exact .inr (.inl hw.word)

/-- `BEGIN` and `START TRANSACTION`. -/
theorem reads_parseBeginTransaction : Parses I P C parseBeginTransaction BeginSpells := by
  refine reads_advance.seq fun start u hu => ?_
  split
  · rename_i hkind
    have hu' : Is (.keyword .begin) start u := ⟨hkind, hu.2 (by simp [hkind])⟩
    refine (reads_transactionOrWork hu'.ends).seq fun stop v hv => .pure fun _ _ => ?_
    refine ⟨.inl (.cons hu'.word (.cons hv.1 .nil)), hu'.join ?_⟩
    rw [List.append_nil]
    exact hv.2
  · rename_i hkind
    have hu' : Is (.keyword .start) start u := ⟨hkind, hu.2 (by simp [hkind])⟩
    refine reads_expectKeyword.seq fun stop v hv => .pure fun _ _ => ?_
    exact ⟨.inr (.cons hu'.word (.cons hv.word .nil)), hu'.join (hv.ends.append_nil.append u)⟩
  · exact reads_fail hu.1

/-- `COMMIT` and `ROLLBACK`. -/
theorem reads_parseEnd {keyword : Keyword} :
    Parses I P C (parseEnd keyword) (EndSpells keyword) := by
  refine reads_expectKeyword.seq fun start u hu => ?_
  refine (reads_transactionOrWork hu.ends).seq fun stop v hv => .pure fun _ _ => ?_
  refine ⟨.cons hu.word (.cons hv.1 .nil), hu.join ?_⟩
  rw [List.append_nil]
  exact hv.2

/-! ## rows -/

/-- The columns an `INSERT` names, or none. -/
theorem reads_insertColumns :
    Parses I P C insertColumns
      (Listed [word .leftParen] (word .comma) Identifier.Spells [word .rightParen]) := by
  refine reads_when (by simp) (fun u hu => ?_) (.pure fun _ _ => rfl)
  refine (reads_commaSeparated fun _ => reads_parseIdentifier).seq fun columns v hv => ?_
  refine (reads_expect (by simp)).seq fun _ w hw => .pure fun _ _ => ?_
  cases columns with
  | nil => exact absurd rfl hv.ne_nil
  | cons name names => exact .cons hu (.cons hv (.cons hw.word .nil))

theorem reads_rowValues : Parses I P C (rowValues ops) (Commas (Spanned.Expr.Stands ops)) :=
  reads_kind fun _ => .ite (fun _ => reads_errorCurrent) fun _ =>
    reads_commaSeparated fun _ => reads_expression

/-- A row of `VALUES` ends with its parenthesis. -/
theorem reads_valuesRow :
    Parses I P C (valuesRow ops) fun row ts => RowSpells ops row.1 ts ∧ Ends ts row.2 := by
  refine (reads_expect (by simp)).seq fun _ u hu => ?_
  refine reads_rowValues.seq fun values v hv => ?_
  refine (reads_expect (by simp)).seq fun close w hw => .pure fun _ _ => ?_
  exact ⟨.cons hu.word (.cons hv (.cons hw.word .nil)), (hw.ends.append_nil.append v).append u⟩

/-- `parse_insert` accepts what spells an `INSERT`. -/
theorem reads_parseInsert : Parses I P C (parseInsert ops) (Insert.Spells ops) := by
  refine reads_expectKeyword.seq fun start u hu => ?_
  refine reads_expectKeyword.seq fun _ u₁ h₁ => ?_
  refine reads_parseIdentifier.seq fun table u₂ h₂ => ?_
  refine reads_insertColumns.seq fun columns u₃ h₃ => ?_
  refine reads_expectKeyword.seq fun _ u₄ h₄ => ?_
  refine (reads_commaSeparated fun _ => reads_valuesRow).seq fun rows u₅ h₅ => .pure fun _ _ =>
    ⟨?_, hu.join ?_⟩
  · exact .cons hu.word (.cons h₁.word (.cons h₂ (.cons h₃ (.cons h₄.word (.cons
      (h₅.map fun _ _ h => h.1) .nil)))))
  · have hends := ends_sepBy (fun _ _ h => And.right h) h₅ start.span
    exact ((((hends.append_nil.append u₄).append u₃).append u₂).append u₁).append u

/-- An alias behind `AS`, or none. -/
theorem reads_selectAlias : Parses I P C selectAlias (Optional AliasSpells) := by
  refine reads_when (by simp) (fun u hu => ?_) (.pure fun _ _ => rfl)
  exact reads_parseIdentifier.seq fun name v hv => .pure fun _ _ => .cons hu (.cons hv .nil)

variable {ts : List Token}

theorem AliasSpells.ends {name : Spanned.Identifier} (h : AliasSpells name ts) :
    Ends ts name.span := by
  obtain ⟨u, _, rfl, -, v, _, rfl, hname, rfl⟩ := h
  exact hname.ends.append_nil.append u

/-- An item of a select list. -/
theorem reads_selectItem : Parses I P C (selectItem ops) (SelectItem.Spells ops) := by
  refine (reads_consume (by simp)).seq fun star u hu => ?_
  cases star with
  | some t =>
    refine .pure fun _ _ => ?_
    rw [List.append_nil]
    exact ⟨hu.word, by rw [hu.2, spanOf_singleton]⟩
  | none =>
    rw [show u = [] from hu]
    refine reads_expression.seq fun e v hv => ?_
    refine reads_selectAlias.seq fun name w hw => .pure fun _ _ => ?_
    rw [List.nil_append]
    refine ⟨.cons hv (.cons hw .nil), ?_⟩
    rw [List.append_nil]
    cases name with
    | none =>
      rw [show w = [] from hw, List.append_nil]
      exact hv.spells.span.2
    | some name =>
      exact join_eq_spanOf hv.spells.span.1 hv.spells.span.2 ((AliasSpells.ends hw).append v)

/-- `WHERE` with its condition, or nothing. -/
theorem reads_whereClause : Parses I P C (whereClause ops) (Optional (WhereSpells ops)) := by
  refine reads_when (by simp) (fun u hu => ?_) (.pure fun _ _ => rfl)
  exact reads_expression.seq fun e v hv => .pure fun _ _ => .cons hu (.cons hv .nil)

theorem WhereSpells.ends {e : Spanned.Expr} (h : WhereSpells ops e ts) :
    Ends ts e.span := by
  obtain ⟨u, _, rfl, -, v, _, rfl, he, rfl⟩ := h
  exact he.spells.ends.append_nil.append u

/-- `ASC` and `DESC`; the span ends where the key does without one. -/
theorem reads_direction {stop : Span} (hu : Ends u stop) :
    Parses I P C (direction stop) fun read v =>
      DirectionSpells read.1 v ∧ Ends (u ++ v) read.2 := by
  refine (reads_consume (by simp)).seq fun desc v hv => ?_
  cases desc with
  | some t =>
    refine .pure fun _ _ => ?_
    rw [List.append_nil]
    exact ⟨hv.word, hv.ends.append u⟩
  | none =>
    rw [show v = [] from hv]
    refine (reads_consume (by simp)).seq fun asc w hw => .pure fun _ _ => ?_
    rw [List.nil_append, List.append_nil]
    refine ⟨?_, hu.optional (fun _ _ h => Is.ends h) hw⟩
    cases asc with
    | none => exact .inr hw
    | some t => exact .inl hw.word

/-- A key of `ORDER BY`. -/
theorem reads_orderKey : Parses I P C (orderKey ops) (OrderKey.Spells ops) := by
  refine reads_expression.seq fun e u hu => ?_
  refine (reads_direction hu.spells.ends).seq fun read v hv => .pure fun _ _ => ?_
  refine ⟨.cons hu (.cons hv.1 .nil), join_eq_spanOf hu.spells.span.1 hu.spells.span.2 ?_⟩
  rw [List.append_nil]
  exact hv.2

theorem OrderKey.Spells.ne_nil {order : Spanned.OrderKey} (h : order.Spells ops ts) :
    ts ≠ [] := by
  obtain ⟨⟨u, v, rfl, hu, -⟩, -⟩ := h
  simp [hu.spells.span.1]

/-- ORDER BY and its keys, if there are any. -/
abbrev OrderSpells (ops : TextOps) : List Spanned.OrderKey → List Token → Prop :=
  Listed [key .order, key .by] (word .comma) (Spanned.OrderKey.Spells ops) []

/-- `ORDER BY` with its keys, or nothing. -/
theorem reads_orderClause : Parses I P C (orderClause ops) (OrderSpells ops) := by
  refine reads_when (by simp) (fun u hu => ?_) (.pure fun _ _ => rfl)
  refine reads_expectKeyword.seq fun _ v hv => ?_
  refine (reads_commaSeparated fun _ => reads_orderKey).mono fun keys w _ hw => ?_
  cases keys with
  | nil => exact absurd rfl hw.ne_nil
  | cons order keys => exact .cons hu (.cons hv.word ⟨w, [], by simp, hw, rfl⟩)

/-- What ends with the last key of `ORDER BY`. -/
theorem ends_orderClause {keys : List Spanned.OrderKey} {v : List Token} {stop : Span}
    (hu : Ends u stop) (hv : OrderSpells ops keys v) :
    Ends (u ++ v) ((keys.getLast?.map Spanned.OrderKey.span).getD stop) := by
  cases keys with
  | nil =>
    rw [show v = [] from hv, List.append_nil]
    exact hu
  | cons order keys =>
    obtain ⟨v₁, _, rfl, -, v₂, _, rfl, -, v₃, _, rfl, hkeys, rfl⟩ := hv
    have hitem : ∀ (order : Spanned.OrderKey) ts, order.Spells ops ts → Ends ts order.span := by
      intro order ts h
      rw [h.2]
      exact ends_spanOf (OrderKey.Spells.ne_nil h)
    exact (((ends_sepBy hitem hkeys stop).append_nil.append v₂).append v₁).append u

omit [Source I P] in
/-- The number of `LIMIT` has 64 bits. -/
theorem reads_limitValue {t : Token} (hP : P t) :
    Parses I P C (limitValue t) fun limit v =>
      v = [] ∧ ∃ raw n, t.kind = .number raw ∧ decimal raw = some n ∧ n < 2 ^ 64 ∧
        limit = UInt64.ofNat n := by
  unfold limitValue
  split
  · rename_i raw hkind
    refine .ite (fun _ => reads_fail hP) fun _ => ?_
    split
    · rename_i n hn
      rw [Option.filter_eq_some_iff, decide_eq_true_eq] at hn
      exact .pure fun _ _ => ⟨rfl, raw, n, hkind, hn.1, hn.2, rfl⟩
    · exact reads_fail hP
  · exact reads_fail hP

/-- `LIMIT` with its number, or nothing. -/
theorem reads_limitClause {stop : Span} (hu : Ends u stop) :
    Parses I P C (limitClause stop) fun read v =>
      Optional LimitSpells read.1 v ∧ Ends (u ++ v) read.2 := by
  refine reads_when (by simp) (fun v hv => ?_) (.pure fun _ _ => ⟨rfl, hu.append_nil⟩)
  refine reads_advance.seq fun t w hw => ?_
  refine (reads_limitValue hw.1).seq fun limit v₃ h₃ => ?_
  obtain ⟨rfl, raw, n, hkind, hn, hlt, rfl⟩ := h₃
  have ht : Is (.number raw) t w := ⟨hkind, hw.2 (by simp [hkind])⟩
  refine .pure fun _ _ => ⟨⟨raw, n, hn, hlt, rfl, .cons hv (.cons ht.word .nil)⟩, ?_⟩
  exact (ht.ends.append_nil.append v).append u

/-- `parse_select` accepts what spells a `SELECT`. -/
theorem reads_parseSelect : Parses I P C (parseSelect ops) (Select.Spells ops) := by
  refine reads_expectKeyword.seq fun start u hu => ?_
  refine (reads_commaSeparated fun _ => reads_selectItem).seq fun projection u₁ h₁ => ?_
  refine reads_expectKeyword.seq fun _ u₂ h₂ => ?_
  refine reads_parseIdentifier.seq fun from_ u₃ h₃ => ?_
  refine reads_whereClause.seq fun selection u₄ h₄ => ?_
  refine reads_orderClause.seq fun orderBy u₅ h₅ => ?_
  have hends := ends_orderClause (h₃.ends.optional (fun _ _ h => WhereSpells.ends h) h₄) h₅
  refine (reads_limitClause hends).seq fun limit u₆ h₆ => .pure fun _ _ => ⟨?_, hu.join ?_⟩
  · exact .cons hu.word (.cons h₁ (.cons h₂.word (.cons h₃ (.cons h₄ (.cons h₅
      (.cons h₆.1 .nil))))))
  · have hends := ((h₆.2.append u₂).append u₁).append u
    simpa using hends

/-- An assignment of `SET`. -/
theorem reads_assignment : Parses I P C (assignment ops) (Assignment.Spells ops) := by
  refine reads_parseIdentifier.seq fun column u hu => ?_
  refine (reads_expect (by simp)).seq fun _ v hv => ?_
  refine reads_expression.seq fun value w hw => .pure fun _ _ => ?_
  refine ⟨.cons hu (.cons hv.word (.cons hw .nil)), join_eq_spanOf hu.span.1 hu.span.2 ?_⟩
  exact (hw.spells.ends.append_nil.append v).append u

theorem Assignment.Spells.ends {assignment : Spanned.Assignment} (h : assignment.Spells ops ts) :
    Ends ts assignment.span := by
  obtain ⟨⟨u, v, rfl, hu, -⟩, hspan⟩ := h
  rw [hspan]
  exact ends_spanOf (by simp [hu.span.1])

/-- `parse_update` accepts what spells an `UPDATE`. -/
theorem reads_parseUpdate : Parses I P C (parseUpdate ops) (Update.Spells ops) := by
  refine reads_expectKeyword.seq fun start u hu => ?_
  refine reads_parseIdentifier.seq fun table u₁ h₁ => ?_
  refine reads_expectKeyword.seq fun _ u₂ h₂ => ?_
  refine (reads_commaSeparated fun _ => reads_assignment).seq fun assignments u₃ h₃ => ?_
  refine reads_whereClause.seq fun selection u₄ h₄ => .pure fun _ _ => ⟨?_, hu.join ?_⟩
  · exact .cons hu.word (.cons h₁ (.cons h₂.word (.cons h₃ (.cons h₄ .nil))))
  · have hassignments := ends_sepBy (fun _ _ h => Assignment.Spells.ends h) h₃ table.span
    have hends := hassignments.optional (fun _ _ h => WhereSpells.ends h) h₄
    simpa using ((hends.append u₂).append u₁).append u

/-- `parse_delete` accepts what spells a `DELETE`. -/
theorem reads_parseDelete : Parses I P C (parseDelete ops) (Delete.Spells ops) := by
  refine reads_expectKeyword.seq fun start u hu => ?_
  refine reads_expectKeyword.seq fun _ u₁ h₁ => ?_
  refine reads_parseIdentifier.seq fun table u₂ h₂ => ?_
  refine reads_whereClause.seq fun selection u₃ h₃ => .pure fun _ _ => ⟨?_, hu.join ?_⟩
  · exact .cons hu.word (.cons h₁.word (.cons h₂ (.cons h₃ .nil)))
  · have hends := h₂.ends.optional (fun _ _ h => WhereSpells.ends h) h₃
    simpa using (hends.append u₁).append u

/-! ## statements -/

omit [Source I P] in
/-- A statement that is made of what a parser returns. -/
theorem reads_statement {α : Type} {p : Parser α} {make : α → Spanned.Statement}
    {S : α → List Token → Prop} (hp : Parses I P C p S)
    (hmake : ∀ a ts, S a ts → (make a).Spells ops ts) :
    Parses I P C (do let a ← p; return make a) (Statement.Spells ops) := by
  refine hp.seq fun a u hu => .pure fun _ _ => ?_
  rw [List.append_nil]
  exact hmake a u hu

/-- **`parse_next_statement`** accepts what spells a statement. -/
theorem reads_parseNextStatement :
    Parses I P C (parseNextStatement ops) (Statement.Spells ops) := by
  refine reads_kind fun k => ?_
  split
  · exact reads_parseCreateStatement
  · exact reads_parseDropStatement
  · exact reads_statement reads_parseBeginTransaction fun _ _ h => h
  · exact reads_statement reads_parseBeginTransaction fun _ _ h => h
  · exact reads_statement reads_parseEnd fun _ _ h => h
  · exact reads_statement reads_parseEnd fun _ _ h => h
  · exact reads_statement reads_parseInsert fun _ _ h => h
  · exact reads_statement reads_parseSelect fun _ _ h => h
  · exact reads_statement reads_parseUpdate fun _ _ h => h
  · exact reads_statement reads_parseDelete fun _ _ h => h
  · exact reads_errorCurrent

theorem Statement.Spells.ne_nil {statement : Spanned.Statement} (h : statement.Spells ops ts) :
    ts ≠ [] := by
  have hword : ∀ {kind : TokenKind} {others : List (List Token → Prop)} {ts : List Token},
      Seq (word kind :: others) ts → ts ≠ [] := by
    intro kind others ts h
    obtain ⟨u, v, rfl, ⟨t, -, rfl⟩, -⟩ := h
    simp
  cases statement with
  | beginTransaction => exact h.1.elim hword hword
  | _ => exact hword h.1

/-- Empty statements are skipped. -/
theorem reads_skipSemicolons :
    Parses I P C skipSemicolons fun _ ts => ∀ t ∈ ts, t.kind = .semicolon := by
  refine .ofLength fun turns => ?_
  have hloop : ∀ C, Parses I P C (semicolons turns) fun _ ts => ∀ t ∈ ts, t.kind = .semicolon := by
    induction turns with
    | zero => exact fun C => .pure fun _ _ => by simp
    | succ turns ih =>
      intro C
      refine reads_when (by simp) (fun u hu => ?_) (.pure fun _ _ => by simp)
      obtain ⟨t, hkind, rfl⟩ := hu
      exact (ih _).mono fun _ ts _ hts => List.forall_mem_cons.mpr ⟨hkind, hts⟩
  exact hloop _

/-- A statement ends with a semicolon or with the text. -/
theorem reads_endOfStatement :
    Parsing.Reads I (Blames P) C endOfStatement fun _ v rest =>
      word .semicolon v ∨ v = [] ∧ (current rest).kind = .eof := by
  refine (reads_consume (by simp)).seq fun semicolon v hv => reads_kind fun k => ?_
  refine .ite (fun _ => reads_errorCurrent) fun hnot => .pure fun rest hrest => ?_
  rw [List.append_nil]
  cases semicolon with
  | some t => exact .inl hv.word
  | none =>
    refine .inr ⟨hv, ?_⟩
    rw [hrest.2]
    exact not_not.mp fun h => hnot ⟨rfl, h⟩

theorem skipSemicolons_of_ne {rest : List Token} (h : (current rest).kind ≠ .semicolon) :
    skipSemicolons rest = .ok ((), rest) := by
  rw [skipSemicolons]
  cases rest.length with
  | zero => rfl
  | succ n =>
    change (consume .semicolon rest >>= _) = _
    rw [consume, if_neg h]
    rfl

/-- There are no statements at the end. -/
theorem statements_of_eof {rest : List Token} (h : (current rest).kind = .eof) (turns : Nat) :
    statements ops turns rest = .ok ([], rest) := by
  cases turns with
  | zero => rfl
  | succ turns =>
    change (skipSemicolons rest >>= _) = _
    rw [skipSemicolons_of_ne (by simp [h])]
    change (if (current rest).kind = .eof then pure [] else _ : Parser _) rest = _
    rw [if_pos h]
    rfl

omit [Source I P] in
/-- At the end of the text there are no more statements. -/
theorem reads_statements_eof (turns : Nat) :
    Parsing.Reads I (Blames P) (fun rest => (current rest).kind = .eof) (statements ops turns)
      fun found ts rest => (found = [] ∧ ts = []) ∧ (current rest).kind = .eof := by
  intro rest hI heof
  rw [statements_of_eof heof]
  exact ⟨hI, [], rfl, ⟨rfl, rfl⟩, heof⟩

/-- **The loop of statements** reads a script, with a turn for each token. -/
theorem reads_statements (turns : Nat) :
    Parsing.Reads I (Blames P) (fun rest => rest.length ≤ turns) (statements ops turns)
    fun found ts rest =>
      Script ops found ts ∧ (current rest).kind = .eof := by
  induction turns with
  | zero =>
    refine .pure fun rest hrest => ⟨.done (by simp), ?_⟩
    rw [List.length_eq_zero_iff.mp (Nat.le_zero.mp hrest)]
    rfl
  | succ turns ih =>
    refine reads_skipSemicolons.bind fun _ front => reads_kind fun k => ?_
    refine .assume (fun _ h => h.1.1) fun hfront => ?_
    refine .ite (fun heof => .pure fun rest hrest => ?_) fun _ => ?_
    · rw [List.append_nil]
      exact ⟨.done hfront, hrest.2.trans heof⟩
    refine reads_parseNextStatement.bind fun statement u => .assume (fun _ h => h.1) fun hu => ?_
    refine reads_endOfStatement.bind fun _ v => ?_
    refine .bind (Q := fun found w rest =>
      Script ops (statement :: found) (front ++ (u ++ (v ++ w))) ∧
      (current rest).kind = .eof) ?_ fun found w => .pure fun rest hrest => ?_
    · refine .either (fun rest h => h.1.imp (fun hword => And.intro hword h.2) id) ?_ ?_
      · refine .assume (fun _ h => h.1) fun hword => ?_
        refine (ih.weaken fun rest h => ?_).mono fun found w rest h =>
          ⟨.next hfront hu hword h.1, h.2⟩
        have hlength := h.2.2.1.2
        have hpos := List.length_pos_iff.mpr (Statement.Spells.ne_nil hu)
        simp only [List.length_append] at hlength
        omega
      · refine .assume (fun _ h => h.1) fun hnil => ?_
        refine ((reads_statements_eof turns).weaken fun _ h => h.2).mono fun found w rest h => ?_
        obtain ⟨⟨rfl, rfl⟩, heof⟩ := h
        subst hnil
        rw [List.append_nil, List.append_nil]
        exact ⟨.last hfront hu, heof⟩
    · rw [List.append_nil]
      exact hrest.1

end QuantaDb.Syntax.Parser
