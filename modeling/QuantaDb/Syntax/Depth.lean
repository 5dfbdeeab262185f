import QuantaDb.Syntax.Complete
import QuantaDb.Syntax.OperatorRuns
import QuantaDb.Syntax.Spans

/-!
# QuantaDb.Syntax.Depth

How high the trees of expressions are.  The parser limits how many of its calls are nested in
one another, but its loop adds an operator to the left spine of a tree in each turn without
going deeper.  So heights are bounded on some texts exactly if the operators are that their
tokens put behind one another (`depth_bounded_iff`).
-/

namespace QuantaDb.Syntax

open Parsing

/-! ## height -/

namespace Expr

theorem spine_le_longestChain (e : Expr) : e.spine.length ≤ e.longestChain := by
  cases e with
  | binary => exact Nat.le_max_left _ _
  | isNull => exact Nat.le_max_left _ _
  | _ => exact Nat.zero_le _

/-- A call of the parser adds the turns of its loop to the height, and one. -/
theorem height_le {e : Expr} {k : Nat} (h : e.longestChain ≤ k) :
    e.height + k ≤ e.spine.length + e.nesting * (k + 1) := by
  induction e with
  | unary operator e ih =>
    have hspine := Nat.le_trans e.spine_le_longestChain h
    have := ih h
    simp only [height, nesting, spine, List.length_nil, Nat.succ_mul] at *
    omega
  | binary left operator right ihleft ihright =>
    obtain ⟨-, hchains⟩ := max_le_iff.mp h
    obtain ⟨hleft, hright⟩ := max_le_iff.mp hchains
    have hspine := Nat.le_trans right.spine_le_longestChain hright
    have hl := ihleft hleft
    have hr := ihright hright
    have hmaxl : left.nesting * (k + 1) ≤ (binary left operator right).nesting * (k + 1) :=
      Nat.mul_le_mul_right _ (Nat.le_max_left _ _)
    have hmaxr : (right.nesting + 1) * (k + 1) ≤ (binary left operator right).nesting * (k + 1) :=
      Nat.mul_le_mul_right _ (Nat.le_max_right _ _)
    rw [Nat.succ_mul] at hmaxr
    simp only [height, spine, List.length_cons]
    omega
  | isNull e negated ih =>
    have := ih (max_le_iff.mp h).2
    simp only [height, nesting, spine, List.length_cons] at *
    omega
  | parenthesized e ih =>
    have hspine := Nat.le_trans e.spine_le_longestChain h
    have := ih h
    simp only [height, nesting, spine, List.length_nil, Nat.succ_mul] at *
    omega
  | _ => simp [height, nesting, spine, Nat.add_comm]

end Expr

/-! ## expressions of statements -/

/-- The parser accepts a text and an expression is part of it. -/
def Accepts (ops : TextOps) (sql : String) (e : Expr) : Prop :=
  ∃ statements, parseSql ops sql = .ok statements ∧
    ∃ statement ∈ statements, ∃ e' ∈ statement.expressions, e'.erase = e

/-- **The tokens of a text that is accepted** put as many operators behind one another as the
longest chain of its expressions, and no more than three trees of their heights have room
for. -/
theorem runs_of_parseSql {ops : TextOps} {sql : String} {statements : List Spanned.Statement}
    {tokens : List Token} (h : parseSql ops sql = .ok statements)
    (htokens : tokenize ops sql = .ok tokens) (height : Nat) :
    (∀ statement ∈ statements, ∀ e ∈ statement.expressions,
      e.Limited ∧ e.erase.longestChain ≤ operatorRun tokens) ∧
    ((∀ statement ∈ statements, ∀ e ∈ statement.expressions, e.erase.height ≤ height) →
      operatorRun tokens ≤ 3 * 2 ^ height) := by
  obtain ⟨consumed, ⟨last, hall, hlast⟩, hscript⟩ := script_of_parseSql h
  obtain rfl := Except.ok.inj (htokens.symm.trans hall)
  have hruns : Spanned.Runs height 3 _ consumed := hscript.runs
  obtain ⟨inner, most, hreads, -, hchain, hbound⟩ := hruns.reads ⟨0, [], 0⟩
  have hrun : operatorRun (consumed ++ [last]) = most := by
    rw [operatorRun, Counts.reads_append, hreads, Counts.reads_cons, hlast]
    rfl
  rw [hrun]
  refine ⟨fun statement hstatement e he => ?_, fun hheight => ?_⟩
  · have hmem := List.mem_flatMap.mpr ⟨statement, hstatement, he⟩
    exact ⟨hruns.limited e hmem, hchain e hmem⟩
  · have hupper := (hbound fun e he => by
      obtain ⟨statement, hstatement, he⟩ := List.mem_flatMap.mp he
      exact hheight statement hstatement e he).2
    simpa using hupper

/-- On texts of any kind, the height of expressions is bounded by a multiple of the depth that
the parser allows if and only if there is a bound on how many operators their tokens put in the
same parentheses with no comma or semicolon between them. -/
theorem depth_bounded_iff (ops : TextOps) (kind : String → Prop) :
    (∃ c, ∀ sql, kind sql → ∀ e, Accepts ops sql e → e.height ≤ c * Parser.maxExpressionDepth) ↔
      ∃ k, ∀ sql tokens, kind sql → (parseSql ops sql).isOk = true →
        tokenize ops sql = .ok tokens → operatorRun tokens ≤ k := by
  constructor
  · rintro ⟨c, h⟩
    refine ⟨3 * 2 ^ (c * Parser.maxExpressionDepth), fun sql tokens hsql hok htokens => ?_⟩
    obtain ⟨statements, hparse⟩ := Fallible.exists_of_isOk hok
    exact (runs_of_parseSql hparse htokens _).2 fun statement hstatement e he =>
      h sql hsql e.erase ⟨statements, hparse, statement, hstatement, e, he, rfl⟩
  · rintro ⟨k, h⟩
    refine ⟨k + 1, fun sql hsql e he => ?_⟩
    obtain ⟨statements, hparse, statement, hstatement, e, he, rfl⟩ := he
    obtain ⟨tokens, htokens, -⟩ := Fallible.bind_eq_ok.mp hparse
    have hrun := h sql tokens hsql (by rw [hparse]; rfl) htokens
    obtain ⟨hlimited, hle⟩ := (runs_of_parseSql hparse htokens 0).1 statement hstatement e he
    have hchain := Nat.le_trans hle hrun
    have hheight := Expr.height_le hchain
    have hspine := Nat.le_trans e.erase.spine_le_longestChain hchain
    calc e.erase.height ≤ e.erase.nesting * (k + 1) := by omega
      _ ≤ Parser.maxExpressionDepth * (k + 1) := Nat.mul_le_mul_right _ hlimited
      _ = (k + 1) * Parser.maxExpressionDepth := Nat.mul_comm _ _

/-! ## texts without parentheses -/

namespace Lexer

variable {ops : TextOps}

/-- What kinds of tokens a text has. -/
def Lexed (ops : TextOps) (text : List Char) (kinds : List TokenKind) : Prop :=
  ∀ turns cursor, text.length < turns →
    ∃ ts, Lexer.tokens ops turns ⟨text, cursor⟩ = .ok ts ∧ ts.map Token.kind = kinds

theorem lexed_nil : Lexed ops [] [.eof] := by
  intro turns cursor hturns
  cases turns with
  | zero => cases hturns
  | succ turns => exact ⟨_, rfl, rfl⟩

/-- White space is skipped before a character that begins no comment. -/
theorem skipTrivia_space {gap rest : List Char} {c : Char}
    (hgap : ∀ d ∈ gap, ops.isWhitespace d = true)
    (hc : ops.isWhitespace c = false) (hminus : c ≠ '-') (hslash : c ≠ '/') (turns cursor : Nat) :
    skipTrivia ops turns ⟨gap ++ c :: rest, cursor⟩ = .ok ⟨c :: rest, cursor + size gap⟩ := by
  have htake : (gap ++ c :: rest).takeWhile ops.isWhitespace = gap :=
    (Scanning.takeWhile_append_of_stop _ hgap (by simp [hc])).1
  have hforward : forward
    ⟨gap ++ c :: rest, cursor⟩ gap.length = ⟨c :: rest, cursor + size gap⟩ := by
    simp [forward]
  cases turns with
  | zero => simp only [skipTrivia, htake, hforward]
  | succ turns => simp [skipTrivia, htake, hforward, startsWith, hminus.symm, hslash.symm]

/-- One turn of the loop of tokens. -/
theorem tokens_step {l l₁ : Lexer} {turns : Nat} {next : Token × Lexer} {ts : List Token}
    (hskip : l.skipTrivia ops l.rest.length = .ok l₁) (hne : l₁.rest ≠ [])
    (hnext : l₁.nextToken ops = .ok next) (hts : next.2.tokens ops turns = .ok ts) :
    l.tokens ops (turns + 1) = .ok (next.1 :: ts) := by
  refine Fallible.bind_eq_ok.mpr ⟨l₁, hskip, ?_⟩
  rw [if_neg hne]
  exact Fallible.bind_eq_ok.mpr ⟨next, hnext, Fallible.bind_eq_ok.mpr ⟨ts, hts, rfl⟩⟩

/-- One token more in front. -/
theorem Lexed.cons {rest : List Char} {kinds : List TokenKind} (h : Lexed ops rest kinds)
    (gap word : List Char) (kind : TokenKind) (hgap : ∀ d ∈ gap, ops.isWhitespace d = true)
    (hne : word ≠ [])
    (hword : ∀ c ∈ word.head?, ops.isWhitespace c = false ∧ c ≠ '-' ∧ c ≠ '/')
    (hnext : ∀ cursor, nextToken ops ⟨word ++ rest, cursor⟩ =
      .ok (token ⟨word ++ rest, cursor⟩ kind word.length)) :
    Lexed ops (gap ++ (word ++ rest)) (kind :: kinds) := by
  intro turns cursor hturns
  obtain ⟨c, word, rfl⟩ := List.exists_cons_of_ne_nil hne
  obtain ⟨hspace, hminus, hslash⟩ := hword c rfl
  cases turns with
  | zero => cases hturns
  | succ turns =>
    simp only [List.length_append, List.length_cons] at hturns
    have hrest : (token ⟨c :: (word ++ rest), cursor + size gap⟩ kind (c :: word).length).2 =
        ⟨rest, cursor + size gap + size (c :: word)⟩ := by
      simp [token, forward]
    obtain ⟨ts, hts, hkinds⟩ := h turns (cursor + size gap + size (c :: word)) (by omega)
    refine ⟨(token ⟨c :: (word ++ rest), cursor + size gap⟩ kind (c :: word).length).1 :: ts, ?_,
      by rw [List.map_cons, hkinds]; rfl⟩
    refine tokens_step (skipTrivia_space hgap hspace hminus hslash _ cursor) (by simp) (hnext _) ?_
    rw [hrest]
    exact hts

/-- A character that only a word can begin with. -/
def BeginsWord (ops : TextOps) (c : Char) : Prop :=
  ops.isWhitespace c = false ∧ isIdentifierStart ops c = true ∧ isDigit c = false ∧
    single c = none ∧ c ∉ ['<', '>', '!', '\'', '"']

instance (ops : TextOps) (c : Char) : Decidable (BeginsWord ops c) := by
  unfold BeginsWord
  infer_instance

/-- A word ends at the first character that is not part of it. -/
theorem nextToken_word {c : Char} {word rest : List Char} (hc : BeginsWord ops c)
    (hword : ∀ d ∈ word, isIdentifierContinue ops d = true)
    (hrest : ∀ d ∈ rest.head?, isIdentifierContinue ops d = false) (cursor : Nat) :
    nextToken ops ⟨c :: word ++ rest, cursor⟩ =
      .ok (token ⟨c :: word ++ rest, cursor⟩ (wordKind ops (String.ofList (c :: word)))
        (c :: word).length) := by
  obtain ⟨-, hstart, hdigit, hsingle, hquote⟩ := hc
  have htake : (word ++ rest).takeWhile (isIdentifierContinue ops) = word :=
    (Scanning.takeWhile_append_of_stop _ hword hrest).1
  simp only [List.mem_cons, List.not_mem_nil, or_false, not_or] at hquote
  simp only [nextToken, List.cons_append, hsingle, hquote, hdigit, hstart, if_false, if_true,
    lexIdentifier, List.drop_succ_cons, List.drop_zero, htake, Bool.false_eq_true]
  have hlength : 1 + word.length = (c :: word).length := Nat.add_comm _ _
  rw [hlength, List.length_cons, List.take_succ_cons, List.take_left]

/-- A word behind white space. -/
theorem Lexed.word {rest : List Char} {kinds : List TokenKind} (h : Lexed ops rest kinds)
    (hrest : ∀ d ∈ rest.head?, isIdentifierContinue ops d = false) (gap : List Char) (c : Char)
    (word : List Char) (kind : TokenKind) (hgap : gap.all ops.isWhitespace = true)
    (hc : BeginsWord ops c)
    (hword : word.all (isIdentifierContinue ops) = true)
    (hkind : wordKind ops (String.ofList (c :: word)) = kind) :
    Lexed ops (gap ++ (c :: word ++ rest)) (kind :: kinds) := by
  subst hkind
  rw [List.all_eq_true] at hgap hword
  refine h.cons gap (c :: word) _ hgap (by simp) (fun d hd => ?_) (nextToken_word hc hword hrest)
  cases hd
  refine ⟨hc.1, ?_, ?_⟩
  · rintro rfl
    exact absurd hc.2.2.2.1 (by decide)
  · rintro rfl
    exact absurd hc.2.2.2.1 (by decide)

end Lexer

/-- `+a`, so many times. -/
def additions (n : Nat) : List Char := (List.replicate n ['+', 'a']).flatten

/-- A condition that is a sum of `a`. -/
def sumText (n : Nat) : String := "DELETE FROM t WHERE a" ++ String.ofList (additions n)

/-- The tree of a sum. -/
def sumTree : Nat → Expr
  | 0 => .identifier ⟨"a", false⟩
  | n + 1 => .binary (sumTree n) .add (.identifier ⟨"a", false⟩)

/-- The kinds of the tokens of a sum. -/
def sumKinds (n : Nat) : List TokenKind :=
  .identifier "a" false :: (List.replicate n [.plus, .identifier "a" false]).flatten

namespace Lexer

theorem not_continue_of_head {c : Char} {rest : List Char}
    (hc : isIdentifierContinue .ascii c = false) :
    ∀ d ∈ (c :: rest).head?, isIdentifierContinue .ascii d = false := by
  intro d hd
  cases hd
  exact hc

theorem additions_head (n : Nat) :
    ∀ d ∈ (additions n).head?, isIdentifierContinue .ascii d = false := by
  cases n with
  | zero => simp [additions]
  | succ n => exact not_continue_of_head (by decide +kernel)

theorem lexed_additions (n : Nat) :
    Lexed .ascii (additions n)
    ((List.replicate n [.plus, .identifier "a" false]).flatten ++ [.eof]) := by
  induction n with
  | zero => exact lexed_nil
  | succ n ih =>
    have hname := ih.word (additions_head n) [] 'a' [] (.identifier "a" false) (by simp)
      (by decide +kernel) (by simp) (by decide +kernel)
    refine hname.cons [] ['+'] .plus (by simp) (by simp) (fun c hc => ?_) fun _ => rfl
    cases hc
    decide +kernel

theorem toList_sumText (n : Nat) :
    (sumText n).toList = [] ++ ('D' :: ['E', 'L', 'E', 'T', 'E'] ++ ([' '] ++
      ('F' :: ['R', 'O', 'M'] ++ ([' '] ++ ('t' :: [] ++ ([' '] ++ ('W' :: ['H', 'E', 'R', 'E'] ++
        ([' '] ++ ('a' :: [] ++ additions n))))))))) := by
  have hfront : "DELETE FROM t WHERE a".toList = ['D', 'E', 'L', 'E', 'T', 'E', ' ', 'F', 'R', 'O',
      'M', ' ', 't', ' ', 'W', 'H', 'E', 'R', 'E', ' ', 'a'] := rfl
  unfold sumText
  simp only [String.toList_append, String.toList_ofList, hfront, List.cons_append, List.nil_append]

/-- The tokens of a long sum. -/
theorem lexed_sumText (n : Nat) :
    Lexed .ascii (sumText n).toList
      (.keyword .delete :: .keyword .from :: .identifier "t" false :: .keyword .where ::
        (sumKinds n ++ [.eof])) := by
  have hspace : ∀ {rest}, ∀ d ∈ ([' '] ++ rest).head?, isIdentifierContinue .ascii d = false :=
    not_continue_of_head (by decide +kernel)
  have hgap : [' '].all TextOps.ascii.isWhitespace = true := by decide +kernel
  have ha := (lexed_additions n).word (additions_head n) [' '] 'a' [] (.identifier "a" false) hgap
    (by decide +kernel) (by simp) (by decide +kernel)
  have hwhere := ha.word hspace [' '] 'W' ['H', 'E', 'R', 'E'] (.keyword .where) hgap
    (by decide +kernel) (by decide +kernel) (by decide +kernel)
  have ht := hwhere.word hspace [' '] 't' [] (.identifier "t" false) hgap (by decide +kernel)
    (by simp) (by decide +kernel)
  have hfrom := ht.word hspace [' '] 'F' ['R', 'O', 'M'] (.keyword .from) hgap
    (by decide +kernel) (by decide +kernel) (by decide +kernel)
  have hdelete := hfrom.word hspace [] 'D' ['E', 'L', 'E', 'T', 'E'] (.keyword .delete) (by simp)
    (by decide +kernel) (by decide +kernel) (by decide +kernel)
  rw [toList_sumText]
  exact hdelete

end Lexer

theorem flatten_sumTree (n : Nat) : (sumTree n).flatten = (sumKinds n).map Lexeme.kind := by
  induction n with
  | zero => rfl
  | succ n ih =>
    rw [sumTree, Expr.flatten, ih, sumKinds, sumKinds, List.replicate_succ']
    simp [Expr.flatten, BinaryOperator.token]

theorem height_sumTree (n : Nat) : (sumTree n).height = n + 1 := by
  induction n with
  | zero => rfl
  | succ n ih =>
    simp only [sumTree, Expr.height, ih]
    omega

theorem nesting_sumTree (n : Nat) : (sumTree n).nesting ≤ 2 := by
  induction n with
  | zero => decide
  | succ n ih => exact max_le ih (Nat.le_refl 2)

theorem precedes_sumTree (n : Nat) : (sumTree n).Precedes ∧ (sumTree n).NotPlaced ∧
    ¬(sumTree n).IsNot ∧ (sumTree n).Closes 7 := by
  induction n with
  | zero => exact ⟨trivial, trivial, id, trivial⟩
  | succ n ih =>
    exact ⟨⟨ih.1, trivial, ih.2.2.2, by simp [Expr.spine]⟩,
      ⟨ih.2.1, trivial, .inr (.inr ⟨ih.2.2.1, id⟩)⟩,
      id, Nat.le_refl 7⟩

namespace Parser

theorem run_parseIdentifier {t : Token} {rest : List Token} {value : String} {quoted : Bool}
    (h : t.kind = .identifier value quoted) :
    parseIdentifier (t :: rest) = .ok (⟨value, quoted, t.span⟩, rest) := by
  rw [parseIdentifier, run_bind (run_advance (by simp [h])), h]
  rfl

/-- The parser on the tokens of a sum. -/
theorem statements_sum {ts : List Token} {n : Nat}
    (h : ts.map Token.kind = .keyword .delete :: .keyword .from :: .identifier "t" false ::
      .keyword .where :: (sumKinds n ++ [.eof])) :
    ∃ statements rest, Parser.statements .ascii ts.length ts = .ok (statements, rest) ∧
      ∃ statement ∈ statements, ∃ e ∈ statement.expressions, e.erase = sumTree n := by
  obtain ⟨delete, _, rfl, hdelete, h⟩ := List.map_eq_cons_iff.mp h
  obtain ⟨from_, _, rfl, hfrom, h⟩ := List.map_eq_cons_iff.mp h
  obtain ⟨table, _, rfl, htable, h⟩ := List.map_eq_cons_iff.mp h
  obtain ⟨where_, _, rfl, hwhere, h⟩ := List.map_eq_cons_iff.mp h
  obtain ⟨sum, last, rfl, hsum, hlast⟩ := List.map_eq_append_iff.mp h
  obtain ⟨last, rfl, heof⟩ := List.map_eq_singleton_iff.mp hlast
  have htokens : sum.map (lexeme .ascii) = (sumTree n).flatten := by
    have hnumber : ∀ t ∈ sum, lexeme .ascii t = .kind t.kind := by
      intro t ht
      refine lexeme_of_kind fun raw hraw => ?_
      have hmem : t.kind ∈ sumKinds n := hsum ▸ List.mem_map_of_mem ht
      simp [sumKinds, hraw] at hmem
    rw [flatten_sumTree, ← hsum, List.map_map]
    exact List.map_congr_left hnumber
  obtain ⟨hprecedes, hplaced, -, -⟩ := precedes_sumTree n
  have hnext : ∀ power, nextPower (current [last]).kind ≠ some power := by
    intro power
    rw [current_cons, heof]
    simp [nextPower, binaryOperator]
  obtain ⟨e, herase, hrun⟩ :=
    @Climbs.returns _ _ (climbs (sumTree n)) maxExpressionDepth 0 sum [last]
    ⟨htokens, hprecedes, hplaced, Nat.le_trans (nesting_sumTree n) (by decide),
      fun _ _ => Nat.zero_le _, fun power hpower => absurd hpower (hnext power)⟩
    fun power hpower => absurd hpower (hnext power)
  have hwhereClause : whereClause .ascii (where_ :: (sum ++ [last])) = .ok (some e, [last]) := by
    rw [whereClause, run_bind (run_consume hwhere (by simp))]
    exact run_bind hrun
  have hparse : parseNextStatement .ascii (delete :: from_ :: table :: where_ :: (sum ++ [last])) =
      .ok (.delete ⟨⟨"t", false, table.span⟩, some e, delete.span.join e.span⟩, [last]) := by
    have hparseDelete : parseDelete .ascii (delete :: from_ :: table :: where_ :: (sum ++ [last])) =
        .ok (⟨⟨"t", false, table.span⟩, some e, delete.span.join e.span⟩, [last]) := by
      rw [parseDelete, expectKeyword, run_bind (run_expect hdelete (by simp)), expectKeyword,
        run_bind (run_expect hfrom (by simp)), run_bind (run_parseIdentifier htable),
        run_bind hwhereClause]
      rfl
    rw [parseNextStatement, run_kind, current_cons, hdelete]
    exact run_bind hparseDelete
  have hend : endOfStatement [last] = .ok ((), [last]) := by
    rw [endOfStatement, run_bind (run_consume_none (by simp [heof])), run_kind, current_cons, heof]
    rfl
  refine ⟨[.delete ⟨⟨"t", false, table.span⟩, some e, delete.span.join e.span⟩], [last], ?_,
    _, List.mem_singleton_self _, e, by simp [Spanned.Statement.expressions], herase⟩
  rw [List.length_cons, Parser.statements, run_bind (skipSemicolons_of_ne (by
    rw [current_cons, hdelete]; simp)), run_kind, current_cons, hdelete, if_neg (by simp),
    run_bind hparse, run_bind hend, run_bind (@statements_of_eof _ [last] heof _)]
  rfl

end Parser

/-- A long sum is accepted. -/
theorem accepts_sumText (n : Nat) : Accepts .ascii (sumText n) (sumTree n) := by
  obtain ⟨ts, hts, hkinds⟩ := Lexer.lexed_sumText n _ 0 (Nat.lt_succ_self _)
  obtain ⟨statements, rest, hparse, hmem⟩ := Parser.statements_sum hkinds
  refine ⟨statements, ?_, hmem⟩
  rw [parseSql, tokenize, hts]
  change (Parser.statements _ _ _ >>= _) = _
  rw [hparse]
  rfl

/-- There is no bound on the height of the expressions that are accepted. -/
theorem depth_unbounded :
    ¬∃ c, ∀ sql e, Accepts .ascii sql e → e.height ≤ c * Parser.maxExpressionDepth := by
  rintro ⟨c, h⟩
  have hheight := h _ _ (accepts_sumText (c * Parser.maxExpressionDepth))
  rw [height_sumTree] at hheight
  exact absurd hheight (Nat.not_succ_le_self _)

end QuantaDb.Syntax
