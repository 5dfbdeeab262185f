import QuantaDb.Engine.Expression
import QuantaDb.Lib.Fallible
import QuantaDb.Lib.Scanning
import QuantaDb.Lib.Utf8

/-!
# QuantaDb.Server.Placeholders

The placeholders of a prepared statement (`pg.rs`): counting them and replacing them by
literals.

Both functions of the source walk the bytes of the text with an automaton of their own
that skips strings and line comments.  `pieces` says what the automata have in common:
the text cut into strings, comments, placeholders and single bytes.  `scan_parameters`
lists the numbers of the placeholders among them, and `substitute_parameters` puts the
pieces together again with the placeholders exchanged.
-/

namespace QuantaDb.Server

open Engine (utf8 utf8_inj)
open Utf8 Fallible Scanning

def quote : UInt8 := 39
def dash : UInt8 := 45
def newline : UInt8 := 10
def dollar : UInt8 := 36

/-- `is_ascii_digit`. -/
def isDigit (byte : UInt8) : Bool := 48 ≤ byte.toNat && byte.toNat ≤ 57

/-- Why a call gave no result: its loop has not ended, it cut a character, or it
returned an error. -/
inductive Halt where
  | unfinished
  | panic
  | error (code message : String)
deriving DecidableEq, Repr

/-- `sql[start..end]`, from the bytes behind `start`. -/
def slice (bytes : Bytes) (length : Nat) : Except Halt Bytes :=
  if length ≤ bytes.length && boundary bytes && boundary (bytes.drop length) then
    .ok (bytes.take length)
  else .error .panic

/-- `parse::<usize>` on digits. -/
def parseUsize (digits : Bytes) : Option Nat :=
  let number := digits.foldl (fun number digit => 10 * number + (digit.toNat - 48)) 0
  if number < 2 ^ 64 then some number else none

/-! ## counting -/

/-- The inner loop of `scan_parameters` on a string: where its closing quote is. -/
def closeAt : Bytes → Nat
  | [] => 0
  | [byte] => if byte = quote then 0 else 1
  | byte :: next :: rest =>
    if byte = quote then if next = quote then closeAt rest + 2 else 0
    else closeAt (next :: rest) + 1

/-- The number behind a `$`, if it is one. -/
def scanNumber (rest : Bytes) (length : Nat) (numbers : List Nat) : Except Halt (List Nat) :=
  if 0 < length then do
    let digits ← slice rest length
    return numbers ++ (parseUsize digits).toList
  else .ok numbers

/-- The loop of `scan_parameters`, for so many turns. -/
def scanLoop : Nat → Bytes → List Nat → Except Halt (List Nat)
  | _, [], numbers => .ok numbers
  | 0, _, _ => .error .unfinished
  | turns + 1, byte :: rest, numbers =>
    if byte = quote then scanLoop turns (rest.drop (closeAt rest + 1)) numbers
    else if byte = dash ∧ rest.head? = some dash then
      scanLoop turns ((byte :: rest).dropWhile (· ≠ newline)) numbers
    else if byte = dollar then do
      let length := (rest.takeWhile isDigit).length
      let numbers ← scanNumber rest length numbers
      scanLoop turns (rest.drop length) numbers
    else scanLoop turns rest numbers

/-- `scan_parameters`.  Each turn advances, so there are no more turns than bytes. -/
def scanParameters (sql : String) : Except Halt (List Nat) :=
  scanLoop (utf8 sql).length (utf8 sql) []

/-- `count_parameters`. -/
def countParameters (sql : String) : Except Halt Nat :=
  (scanParameters sql).map fun numbers => numbers.foldr max 0

/-! ## replacing -/

/-- The inner loop of `substitute_parameters` on a string: where it goes on. -/
def closeAfter : Bytes → Nat
  | [] => 0
  | [_] => 1
  | byte :: next :: rest =>
    if byte = quote then if next = quote then closeAfter rest + 2 else 1
    else closeAfter (next :: rest) + 1

/-- The literal of a placeholder. -/
def lookup (literals : List String) (digits : Bytes) : Except Halt String :=
  match parseUsize digits with
  | none => .error (.error "08P01" "parameter number is out of range")
  | some number =>
    match if number = 0 then none else literals[number - 1]? with
    | some literal => .ok literal
    | none =>
      .error (.error "08P01"
        s!"statement references ${number} but only {literals.length} parameters are bound")

/-- `output.push(char::from(byte))`. -/
def pushByte (byte : UInt8) : Bytes := String.utf8EncodeChar (Char.ofUInt8 byte)

/-- The loop of `substitute_parameters`, for so many turns. -/
def substituteLoop (literals : List String) : Nat → Bytes → Bytes → Except Halt Bytes
  | _, [], output => .ok output
  | 0, _, _ => .error .unfinished
  | turns + 1, byte :: rest, output =>
    if byte = quote then do
      let length := closeAfter rest + 1
      let text ← slice (byte :: rest) (min length (rest.length + 1))
      substituteLoop literals turns (rest.drop (length - 1)) (output ++ text)
    else if byte = dash ∧ rest.head? = some dash then do
      let length := ((byte :: rest).takeWhile (· ≠ newline)).length
      let text ← slice (byte :: rest) length
      substituteLoop literals turns ((byte :: rest).drop length) (output ++ text)
    else if byte = dollar then
      let length := (rest.takeWhile isDigit).length
      if length = 0 then substituteLoop literals turns rest (output ++ [dollar])
      else do
        let digits ← slice rest length
        let literal ← lookup literals digits
        substituteLoop literals turns (rest.drop length) (output ++ utf8 literal)
    else substituteLoop literals turns rest (output ++ pushByte byte)

/-- `substitute_parameters`. -/
def substituteParameters (sql : String) (literals : List String) : Except Halt Bytes :=
  substituteLoop literals (utf8 sql).length (utf8 sql) []

/-! ## the pieces of a text -/

/-- A part of a text as both functions see it. -/
inductive Piece where
  | quoted (text : Bytes)
  | comment (text : Bytes)
  | placeholder (digits : Bytes)
  | dollar
  | plain (byte : UInt8)
deriving DecidableEq, Repr

namespace Piece

/-- The bytes of a piece. -/
def text : Piece → Bytes
  | quoted text => text
  | comment text => text
  | placeholder digits => Server.dollar :: digits
  | dollar => [Server.dollar]
  | plain byte => [byte]

/-- The digits of a placeholder. -/
def digits? : Piece → Option Bytes
  | placeholder digits => some digits
  | _ => none

/-- What is put out for a piece. -/
def replaced (literals : List String) : Piece → Except Halt Bytes
  | placeholder digits => (lookup literals digits).map utf8
  | plain byte => .ok (pushByte byte)
  | piece => .ok piece.text

end Piece

/-- The first piece of a text and what is behind it. -/
def firstPiece (byte : UInt8) (rest : Bytes) : Piece × Bytes :=
  if byte = quote then (.quoted (byte :: rest.take (closeAfter rest)), rest.drop (closeAfter rest))
  else if byte = dash ∧ rest.head? = some dash then
    (.comment (byte :: rest.takeWhile (· ≠ newline)), rest.dropWhile (· ≠ newline))
  else if byte = dollar then
    if rest.takeWhile isDigit = [] then (.dollar, rest)
    else (.placeholder (rest.takeWhile isDigit), rest.dropWhile isDigit)
  else (.plain byte, rest)

theorem firstPiece_suffix (byte : UInt8) (rest : Bytes) : (firstPiece byte rest).2 <:+ rest := by
  unfold firstPiece
  split
  · exact List.drop_suffix _ _
  · split
    · exact List.dropWhile_suffix _
    · split
      · split
        · exact List.suffix_rfl
        · exact List.dropWhile_suffix _
      · exact List.suffix_rfl

/-- The pieces of a text. -/
def pieces : Bytes → List Piece
  | [] => []
  | byte :: rest => (firstPiece byte rest).1 :: pieces (firstPiece byte rest).2
termination_by bytes => bytes.length
decreasing_by
  have := (firstPiece_suffix byte rest).length_le
  simp only [List.length_cons]
  omega

theorem text_firstPiece (byte : UInt8) (rest : Bytes) :
    (firstPiece byte rest).1.text ++ (firstPiece byte rest).2 = byte :: rest := by
  unfold firstPiece
  split
  · simp [Piece.text]
  · split
    · simp [Piece.text]
    · split
      · rename_i hdollar
        split
        · simp [Piece.text, hdollar]
        · simp [Piece.text, hdollar]
      · simp [Piece.text]

/-- A text is its pieces. -/
theorem flatMap_text_pieces (bytes : Bytes) : (pieces bytes).flatMap Piece.text = bytes := by
  induction bytes using pieces.induct with
  | case1 => simp [pieces]
  | case2 byte rest ih => rw [pieces, List.flatMap_cons, ih, text_firstPiece]

/-! ## where the text is cut -/

theorem closeAfter_le (bytes : Bytes) : closeAfter bytes ≤ bytes.length := by
  fun_induction closeAfter bytes <;> simp_all

/-- The two inner loops on strings end at the same place. -/
theorem drop_closeAt (bytes : Bytes) :
    bytes.drop (closeAt bytes + 1) = bytes.drop (closeAfter bytes) := by
  fun_induction closeAfter bytes <;> simp_all [closeAt]

variable {bytes : Bytes}

/-- A string ends between characters. -/
theorem boundary_closeAfter (h : Whole bytes) :
    boundary (bytes.drop (closeAfter bytes)) = true := by
  fun_induction closeAfter bytes with
  | case1 => rfl
  | case2 => rfl
  | case3 rest ih => exact ih (h.suffix ⟨[quote, quote], rfl⟩)
  | case4 next rest hnext => exact h.boundary (by decide)
  | case5 byte next rest hbyte ih => exact ih (h.suffix ⟨[byte], rfl⟩)

/-- A comment ends between characters. -/
theorem boundary_comment (bytes : Bytes) : boundary (bytes.dropWhile (· ≠ newline)) = true := by
  induction bytes with
  | nil => rfl
  | cons byte bytes ih =>
    by_cases hbyte : byte = newline
    · subst hbyte
      rfl
    · rwa [List.dropWhile_cons_of_pos (by simpa using hbyte)]

variable {byte : UInt8}

/-- Digits behind an ASCII byte end between characters. -/
theorem boundary_digits (h : Whole (byte :: bytes)) (hbyte : byte.toNat < 128) :
    boundary (bytes.dropWhile isDigit) = true := by
  induction bytes generalizing byte with
  | nil => rfl
  | cons next bytes ih =>
    cases hnext : isDigit next with
    | true =>
      rw [List.dropWhile_cons_of_pos hnext]
      refine ih (h.suffix ⟨[byte], rfl⟩) ?_
      simp only [isDigit, Bool.and_eq_true, decide_eq_true_eq] at hnext
      omega
    | false =>
      rw [List.dropWhile_cons_of_neg (by simp [hnext])]
      exact h.boundary hbyte

/-- Cutting a text where that is possible. -/
theorem slice_eq {length : Nat} (hlength : length ≤ bytes.length) (hstart : boundary bytes = true)
    (hend : boundary (bytes.drop length) = true) :
    slice bytes length = .ok (bytes.take length) := by
  rw [slice, if_pos (by simp [hlength, hstart, hend])]

theorem slice_quoted {rest : Bytes} (h : Whole (quote :: rest)) :
    slice (quote :: rest) (min (closeAfter rest + 1) (rest.length + 1)) =
      .ok (quote :: rest.take (closeAfter rest)) := by
  rw [Nat.min_eq_left (Nat.succ_le_succ (closeAfter_le rest))]
  exact slice_eq (Nat.succ_le_succ (closeAfter_le rest)) rfl
    (boundary_closeAfter (h.suffix (List.suffix_cons _ _)))

/-- Cutting behind bytes of one kind. -/
theorem slice_takeWhile {p : UInt8 → Bool} (hstart : boundary bytes = true)
    (hend : boundary (bytes.dropWhile p) = true) :
    slice bytes (bytes.takeWhile p).length = .ok (bytes.takeWhile p) := by
  rw [slice_eq (List.takeWhile_sublist p).length_le hstart (by rwa [drop_takeWhile_length]),
    take_takeWhile_length]

/-! ## one turn -/

variable {literals : List String} {turns : Nat}

theorem substituteLoop_step {rest output : Bytes} (h : Whole (byte :: rest)) :
    substituteLoop literals (turns + 1) (byte :: rest) output =
      (firstPiece byte rest).1.replaced literals >>= fun text =>
        substituteLoop literals turns (firstPiece byte rest).2 (output ++ text) := by
  rw [substituteLoop, firstPiece]
  by_cases hquote : byte = quote
  · subst hquote
    simp only [slice_quoted h]
    rfl
  · rw [if_neg hquote, if_neg hquote]
    by_cases hdash : byte = dash ∧ rest.head? = some dash
    · obtain rfl := hdash.1
      have hstart : boundary (dash :: rest) = true := rfl
      rw [if_pos hdash, if_pos hdash]
      simp only [drop_takeWhile_length, slice_takeWhile hstart (boundary_comment _)]
      rfl
    · rw [if_neg hdash, if_neg hdash]
      by_cases hdollar : byte = dollar
      · subst hdollar
        rw [if_pos rfl, if_pos rfl]
        by_cases hdigits : rest.takeWhile isDigit = []
        · simp only [hdigits]
          rfl
        · rw [if_neg hdigits]
          simp only [List.length_eq_zero_iff, hdigits, drop_takeWhile_length,
            slice_takeWhile (h.boundary (by decide)) (boundary_digits h (by decide))]
          change (lookup literals (rest.takeWhile isDigit) >>= fun literal =>
              substituteLoop literals turns (rest.dropWhile isDigit) (output ++ utf8 literal)) =
            (lookup literals (rest.takeWhile isDigit)).map utf8 >>= _
          cases lookup literals (rest.takeWhile isDigit) <;> rfl
      · rw [if_neg hdollar, if_neg hdollar]
        rfl

theorem scanLoop_step {rest : Bytes} {numbers : List Nat} (h : Whole (byte :: rest)) :
    scanLoop (turns + 1) (byte :: rest) numbers =
      scanLoop turns (firstPiece byte rest).2
        (numbers ++ ((firstPiece byte rest).1.digits?.bind parseUsize).toList) := by
  rw [scanLoop, firstPiece]
  by_cases hquote : byte = quote
  · subst hquote
    simp [drop_closeAt, Piece.digits?]
  · rw [if_neg hquote, if_neg hquote]
    by_cases hdash : byte = dash ∧ rest.head? = some dash
    · obtain rfl := hdash.1
      rw [if_pos hdash, if_pos hdash]
      simp [Piece.digits?]
      rfl
    · rw [if_neg hdash, if_neg hdash]
      by_cases hdollar : byte = dollar
      · subst hdollar
        rw [if_pos rfl, if_pos rfl]
        by_cases hdigits : rest.takeWhile isDigit = []
        · simp [hdigits, scanNumber, Piece.digits?]
          rfl
        · rw [if_neg hdigits]
          simp only [scanNumber, List.length_pos_iff, drop_takeWhile_length,
            slice_takeWhile (h.boundary (by decide)) (boundary_digits h (by decide))]
          rw [if_pos hdigits]
          rfl
      · rw [if_neg hdollar, if_neg hdollar]
        simp [Piece.digits?]

/-! ## whole texts -/

/-- Replacing goes through the pieces. -/
theorem substituteLoop_eq (h : Whole bytes) (hturns : bytes.length ≤ turns) (output : Bytes) :
    substituteLoop literals turns bytes output =
      ((pieces bytes).mapM (Piece.replaced literals)).map fun texts => output ++ texts.flatten := by
  induction bytes using pieces.induct generalizing turns output with
  | case1 =>
    rw [pieces, List.mapM_nil]
    cases turns <;> simp [substituteLoop, pure, Except.pure, Except.map]
  | case2 byte rest ih =>
    have hsuffix := firstPiece_suffix byte rest
    obtain ⟨turns, rfl⟩ := Nat.exists_eq_succ_of_ne_zero (Nat.ne_of_gt (Nat.lt_of_lt_of_le
      (Nat.succ_pos _) hturns))
    have hrest : (firstPiece byte rest).2.length ≤ turns :=
      Nat.le_trans hsuffix.length_le (Nat.le_of_succ_le_succ hturns)
    rw [substituteLoop_step h, pieces, List.mapM_cons]
    cases (firstPiece byte rest).1.replaced literals with
    | error e => rfl
    | ok text =>
      refine (ih (h.suffix (hsuffix.trans (List.suffix_cons _ _))) hrest _).trans ?_
      cases (pieces (firstPiece byte rest).2).mapM (Piece.replaced literals) with
      | error e => rfl
      | ok texts => exact congrArg Except.ok (List.append_assoc _ _ _)

/-- Counting lists the placeholders among the pieces. -/
theorem scanLoop_eq (h : Whole bytes) (hturns : bytes.length ≤ turns) (numbers : List Nat) :
    scanLoop turns bytes numbers =
      .ok (numbers ++ ((pieces bytes).filterMap Piece.digits?).filterMap parseUsize) := by
  induction bytes using pieces.induct generalizing turns numbers with
  | case1 =>
    rw [pieces]
    cases turns <;> simp [scanLoop]
  | case2 byte rest ih =>
    have hsuffix := firstPiece_suffix byte rest
    obtain ⟨turns, rfl⟩ := Nat.exists_eq_succ_of_ne_zero (Nat.ne_of_gt (Nat.lt_of_lt_of_le
      (Nat.succ_pos _) hturns))
    have hrest : (firstPiece byte rest).2.length ≤ turns :=
      Nat.le_trans hsuffix.length_le (Nat.le_of_succ_le_succ hturns)
    rw [scanLoop_step h, ih (h.suffix (hsuffix.trans (List.suffix_cons _ _))) hrest, pieces,
      List.append_assoc, List.filterMap_cons]
    cases (firstPiece byte rest).1.digits? with
    | none => rfl
    | some digits =>
      rw [List.filterMap_cons]
      cases hnumber : parseUsize digits <;> simp [hnumber]

/-! ## statements -/

theorem utf8_eq (s : String) : utf8 s = s.toList.flatMap String.utf8EncodeChar := by
  unfold utf8
  rw [← String.utf8Encode_toList]
  simp [List.utf8Encode]

/-- The bytes of a text are whole characters. -/
theorem whole_utf8 (s : String) : Whole (utf8 s) := by
  rw [utf8_eq]
  exact (whole_encode _).1

/-- The placeholders of a text, by their digits. -/
def placeholders (sql : String) : List Bytes := (pieces (utf8 sql)).filterMap Piece.digits?

theorem scanParameters_eq (sql : String) :
    scanParameters sql = .ok ((placeholders sql).filterMap parseUsize) :=
  scanLoop_eq (whole_utf8 sql) le_rfl []

theorem substituteParameters_eq (sql : String) (literals : List String) :
    substituteParameters sql literals =
      ((pieces (utf8 sql)).mapM (Piece.replaced literals)).map List.flatten := by
  rw [substituteParameters, substituteLoop_eq (whole_utf8 sql) le_rfl]
  rfl

/-- The number of a placeholder is the number of a literal. -/
def Bound (literals : List String) (digits : Bytes) : Prop :=
  ∃ number, parseUsize digits = some number ∧ 1 ≤ number ∧ number ≤ literals.length

theorem exists_lookup_iff {digits : Bytes} :
    (∃ literal, lookup literals digits = .ok literal) ↔ Bound literals digits := by
  unfold lookup Bound
  cases parseUsize digits with
  | none => simp
  | some number =>
    cases number with
    | zero => simp
    | succ index =>
      simp only [Nat.succ_ne_zero, if_false, Nat.add_sub_cancel, Option.some.injEq]
      cases hliteral : literals[index]? with
      | none =>
        have := List.getElem?_eq_none_iff.mp hliteral
        simp
        omega
      | some literal =>
        have := (List.getElem?_eq_some_iff.mp hliteral).1
        simp
        omega

/-- Only placeholders can fail, and they fail with an error. -/
theorem failsOnly_replaced (literals : List String) (piece : Piece) :
    FailsOnly (fun halt => ∃ code message, halt = .error code message)
    (piece.replaced literals) := by
  cases piece with
  | placeholder digits =>
    refine FailsOnly.map ?_
    unfold lookup
    intro halt hhalt
    split at hhalt
    · cases hhalt
      exact ⟨_, _, rfl⟩
    · split at hhalt
      · cases hhalt
      · cases hhalt
        exact ⟨_, _, rfl⟩
  | _ => exact .ok _

theorem exists_replaced_iff {piece : Piece} :
    (∃ text, piece.replaced literals = .ok text) ↔
      ∀ digits, piece.digits? = some digits → Bound literals digits := by
  cases piece with
  | placeholder digits =>
    simp only [Piece.replaced, Piece.digits?, map_eq_ok, Option.some.injEq, forall_eq',
      ← exists_lookup_iff]
    constructor
    · rintro ⟨_, literal, h, -⟩
      exact ⟨literal, h⟩
    · rintro ⟨literal, h⟩
      exact ⟨_, literal, h, rfl⟩
  | _ => simp [Piece.replaced, Piece.digits?]

theorem exists_substituteParameters_iff (sql : String) (literals : List String) :
    (∃ output, substituteParameters sql literals = .ok output) ↔
      ∀ digits ∈ placeholders sql, Bound literals digits := by
  simp only [substituteParameters_eq, map_eq_ok, placeholders, List.mem_filterMap]
  constructor
  · rintro ⟨_, texts, htexts, -⟩ digits ⟨piece, hpiece, hdigits⟩
    exact exists_replaced_iff.mp (exists_mapM_eq_ok.mp ⟨texts, htexts⟩ piece hpiece) digits hdigits
  · intro h
    obtain ⟨texts, htexts⟩ := exists_mapM_eq_ok.mpr fun piece hpiece =>
      exists_replaced_iff.mpr fun digits hdigits => h digits ⟨piece, hpiece, hdigits⟩
    exact ⟨_, texts, htexts, rfl⟩

/-- The number of parameters is at least the number of each placeholder. -/
theorem le_countParameters {sql : String} {count : Nat} (h : countParameters sql = .ok count)
    {digits : Bytes} (hdigits : digits ∈ placeholders sql) {number : Nat}
    (hnumber : parseUsize digits = some number) : number ≤ count := by
  rw [countParameters, scanParameters_eq] at h
  cases h
  exact List.le_max_of_le' 0 (List.mem_filterMap.mpr ⟨digits, hdigits, hnumber⟩) le_rfl

/-- **The two scanners agree.**  The text is cut into pieces; replacing turns them over one
by one, counting lists the numbers of the placeholders among them, and neither cuts a
character or fails to end.  Replacing succeeds exactly if every placeholder has a
literal, which is so for as many literals as were counted, unless a number is zero or
too large. -/
theorem scanners_agree (sql : String) (literals : List String) :
    (pieces (utf8 sql)).flatMap Piece.text = utf8 sql ∧
    substituteParameters sql literals =
      ((pieces (utf8 sql)).mapM (Piece.replaced literals)).map List.flatten ∧
    scanParameters sql = .ok ((placeholders sql).filterMap parseUsize) ∧
    (∀ halt, substituteParameters sql literals = .error halt →
      ∃ code message, halt = .error code message) ∧
    ((∃ output, substituteParameters sql literals = .ok output) ↔
      ∀ digits ∈ placeholders sql, ∃ number, parseUsize digits = some number ∧
        1 ≤ number ∧ number ≤ literals.length) ∧
    (countParameters sql = .ok literals.length →
      (∀ digits ∈ placeholders sql, ∃ number, parseUsize digits = some number ∧ number ≠ 0) →
      ∃ output, substituteParameters sql literals = .ok output) := by
  refine ⟨flatMap_text_pieces _, substituteParameters_eq sql literals, scanParameters_eq sql, ?_,
    exists_substituteParameters_iff sql literals, fun hcount hnumbers => ?_⟩
  · rw [substituteParameters_eq]
    exact FailsOnly.map (FailsOnly.mapM fun piece _ => failsOnly_replaced literals piece)
  · rw [exists_substituteParameters_iff]
    intro digits hdigits
    obtain ⟨number, hnumber, hne⟩ := hnumbers digits hdigits
    exact ⟨number, hnumber, Nat.one_le_iff_ne_zero.mpr hne,
      le_countParameters hcount hdigits hnumber⟩

/-! ## what is copied -/

/-- The text a piece should become. -/
def Piece.exchanged (literals : List String) : Piece → Bytes
  | .placeholder digits =>
    (((parseUsize digits).bind fun number => literals[number - 1]?).map utf8).getD []
  | piece => piece.text

/-- Ordinary text has no character that is not ASCII. -/
def PlainAscii (sql : String) : Prop :=
  ∀ byte, Piece.plain byte ∈ pieces (utf8 sql) → byte.toNat < 128

theorem toNat_ofUInt8 (byte : UInt8) : (Char.ofUInt8 byte).val.toNat = byte.toNat := by
  simp [Char.ofUInt8]

theorem pushByte_ascii (h : byte.toNat < 128) : pushByte byte = [byte] := by
  simp only [pushByte, String.utf8EncodeChar, toNat_ofUInt8]
  rw [if_pos (by omega), UInt8.ofNat_toNat]

/-- A byte of a longer character is put out as a character of two bytes. -/
theorem length_pushByte (h : 128 ≤ byte.toNat) : (pushByte byte).length = 2 := by
  have hlt := byte.toNat_lt
  simp only [pushByte, String.utf8EncodeChar, toNat_ofUInt8]
  rw [if_neg (by omega), if_pos (by omega)]
  rfl

/-- What is put out for a piece is what it should become, or longer. -/
theorem replaced_cases {piece : Piece} {text : Bytes} (h : piece.replaced literals = .ok text) :
    (text = piece.exchanged literals ∧ ∀ byte, piece = .plain byte → byte.toNat < 128) ∨
      ((piece.exchanged literals).length < text.length ∧
        ∃ byte, piece = .plain byte ∧ 128 ≤ byte.toNat) := by
  cases piece with
  | plain byte =>
    cases h
    rcases Nat.lt_or_ge byte.toNat 128 with hlt | hge
    · refine .inl ⟨pushByte_ascii hlt, ?_⟩
      rintro _ ⟨⟩
      exact hlt
    · refine .inr ⟨?_, byte, rfl, hge⟩
      rw [length_pushByte hge]
      exact Nat.one_lt_two
  | placeholder digits =>
    refine .inl ⟨?_, by simp⟩
    obtain ⟨literal, hlookup, rfl⟩ := map_eq_ok.mp h
    unfold lookup at hlookup
    split at hlookup
    · cases hlookup
    · rename_i number hnumber
      split at hlookup
      · rename_i hliteral
        cases hlookup
        rw [ite_eq_iff] at hliteral
        simp_all [Piece.exchanged]
      · cases hlookup
  | _ =>
    cases h
    exact .inl ⟨rfl, by simp⟩

/-- The output of several pieces: as it should be, or longer. -/
theorem flatten_replaced {ps : List Piece} {texts : List Bytes}
    (h : List.Forall₂ (fun piece text => piece.replaced literals = .ok text) ps texts) :
    (ps.flatMap (Piece.exchanged literals)).length ≤ texts.flatten.length ∧
      (texts.flatten = ps.flatMap (Piece.exchanged literals) ↔
        ∀ byte, Piece.plain byte ∈ ps → byte.toNat < 128) := by
  induction h with
  | nil => simp
  | @cons piece text ps texts hpiece _ ih =>
    rw [List.flatMap_cons, List.flatten_cons, List.length_append, List.length_append]
    rcases replaced_cases hpiece with ⟨rfl, hascii⟩ | ⟨hlonger, byte, rfl, hbyte⟩
    · refine ⟨Nat.add_le_add_left ih.1 _, ?_⟩
      rw [List.append_cancel_left_eq, ih.2]
      refine forall_congr' fun byte => ?_
      rw [List.mem_cons]
      refine ⟨fun hrest hmem => hmem.elim (fun heq => hascii byte heq.symm) hrest,
        fun hall hmem => hall (.inr hmem)⟩
    · refine ⟨by omega, fun heq => ?_, fun hall => ?_⟩
      · have := congrArg List.length heq
        simp only [List.length_append] at this
        omega
      · exact absurd (hall byte List.mem_cons_self) (by omega)

/-- **What substitution copies.**  The output is the text with its placeholders exchanged,
and the text itself if it has none, exactly if ordinary text, outside of strings and
line comments, is ASCII. -/
theorem substitute_verbatim_iff (sql : String) (literals : List String) (output : Bytes)
    (h : substituteParameters sql literals = .ok output) :
    (output = (pieces (utf8 sql)).flatMap (Piece.exchanged literals) ∧
      (placeholders sql = [] → output = utf8 sql)) ↔ PlainAscii sql := by
  rw [substituteParameters_eq, map_eq_ok] at h
  obtain ⟨texts, htexts, rfl⟩ := h
  have hflat := (flatten_replaced (mapM_eq_ok.mp htexts)).2
  constructor
  · rintro ⟨heq, -⟩
    exact hflat.mp heq
  · intro hplain
    have heq := hflat.mpr hplain
    refine ⟨heq, fun hnone => heq.trans ?_⟩
    -- without placeholders every piece is exchanged for itself
    refine Eq.trans (List.flatMap_congr fun piece hpiece => ?_) (flatMap_text_pieces (utf8 sql))
    cases piece with
    | placeholder digits =>
      have hmem : digits ∈ placeholders sql := List.mem_filterMap.mpr ⟨_, hpiece, rfl⟩
      rw [hnone] at hmem
      cases hmem
    | _ => rfl

/-- `SELECT é` comes out as `SELECT Ã©`. -/
theorem substitute_recodes :
    substituteParameters "SELECT é" [] = .ok (utf8 "SELECT Ã©") ∧
    placeholders "SELECT é" = [] ∧ utf8 "SELECT Ã©" ≠ utf8 "SELECT é" := by
  refine ⟨by decide +kernel, ?_, by decide +kernel⟩
  have hbytes : utf8 "SELECT é" = [83, 69, 76, 69, 67, 84, 32, 195, 169] := by decide +kernel
  rw [placeholders, hbytes]
  simp [pieces, firstPiece, quote, dash, dollar, Piece.digits?]

theorem substitute_verbatim_iff_quoted :
    substituteParameters "'é' $1" ["'x'"] = .ok (utf8 "'é' 'x'") ∧
    (utf8 "'é' 'x'" = (pieces (utf8 "'é' $1")).flatMap (Piece.exchanged ["'x'"]) ∧
      (placeholders "'é' $1" = [] → utf8 "'é' 'x'" = utf8 "'é' $1") ↔ PlainAscii "'é' $1") := by
  have h : substituteParameters "'é' $1" ["'x'"] = .ok (utf8 "'é' 'x'") := by decide +kernel
  exact ⟨h, substitute_verbatim_iff _ _ _ h⟩

end QuantaDb.Server
