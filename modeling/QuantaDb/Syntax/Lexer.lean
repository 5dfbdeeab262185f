import QuantaDb.Lib.Fallible
import QuantaDb.Lib.Scanning
import QuantaDb.Syntax.Token

/-!
# QuantaDb.Syntax.Lexer

The lexer (`lexer.rs`).

A lexer is the text it has still to read and the byte at which that begins.  What
`tokenize` returns is described by `Lexes`: the text is gaps of white space and
comments with the words of the tokens between them, and the span of a token is the
place of its word.
-/

namespace QuantaDb.Syntax

/-- The length of a text in bytes. -/
def size (cs : List Char) : Nat := (cs.map Char.utf8Size).sum

@[simp] theorem size_nil : size [] = 0 := rfl

@[simp] theorem size_cons (c : Char) (cs : List Char) : size (c :: cs) = c.utf8Size + size cs := rfl

@[simp] theorem size_append (cs ds : List Char) : size (cs ++ ds) = size cs + size ds := by
  simp [size]

/-- `is_ascii_digit`. -/
def isDigit (c : Char) : Bool := '0' ≤ c && c ≤ '9'

/-- `Lexer`. -/
structure Lexer where
  rest : List Char
  cursor : Nat
deriving DecidableEq, Repr

namespace Lexer

/-- The length of the text: `self.sql.len()`. -/
def length (l : Lexer) : Nat := l.cursor + size l.rest

/-- `advance`, so many times. -/
def forward (l : Lexer) (n : Nat) : Lexer := ⟨l.rest.drop n, l.cursor + size (l.rest.take n)⟩

/-- The token of the next `n` characters. -/
def token (l : Lexer) (kind : TokenKind) (n : Nat) : Token × Lexer :=
  (⟨kind, ⟨l.cursor, (l.forward n).cursor⟩⟩, l.forward n)

/-- The error at the next `n` characters. -/
def error (l : Lexer) (message : String) (n : Nat) : SyntaxError :=
  ⟨message, l.cursor, (l.forward n).cursor⟩

/-- The error for what does not end before the text does. -/
def unterminated (l : Lexer) (message : String) : SyntaxError := ⟨message, l.cursor, l.length⟩

/-! ## white space and comments -/

/-- The loop of `skip_block_comment`: how many characters there are to the end of the
comment.  The depth of nesting is a `u32` that saturates. -/
def blockLength : Nat → List Char → Option Nat
  | _, [] => none
  | _, [_] => none
  | depth, c :: d :: rest =>
    if c = '/' ∧ d = '*' then (blockLength (min (depth + 1) (2 ^ 32 - 1)) rest).map (· + 2)
    else if c = '*' ∧ d = '/' then
      if depth = 1 then some 2 else (blockLength (depth - 1) rest).map (· + 2)
    else (blockLength depth (d :: rest)).map (· + 1)

/-- The text begins so. -/
def startsWith (l : Lexer) (word : List Char) : Bool := word.isPrefixOf l.rest

/-- `skip_block_comment`. -/
def skipBlockComment (l : Lexer) : Except SyntaxError Lexer :=
  match blockLength 1 (l.rest.drop 2) with
  | some n => .ok (l.forward (n + 2))
  | none => .error (l.unterminated "unterminated block comment")

/-- The loop of `skip_trivia`, for so many turns. -/
def skipTrivia (ops : TextOps) : Nat → Lexer → Except SyntaxError Lexer
  | turns, l =>
    let l := l.forward (l.rest.takeWhile ops.isWhitespace).length
    match turns with
    | 0 => .ok l
    | turns + 1 =>
      if l.startsWith ['-', '-'] then
        let l := l.forward 2
        skipTrivia ops turns (l.forward (l.rest.takeWhile (· ≠ '\n')).length)
      else if l.startsWith ['/', '*'] then do
        let l ← l.skipBlockComment
        skipTrivia ops turns l
      else .ok l

/-! ## tokens -/

/-- Tokens of one character. -/
def single : Char → Option TokenKind
  | ',' => some .comma
  | '.' => some .dot
  | '*' => some .star
  | '(' => some .leftParen
  | ')' => some .rightParen
  | ';' => some .semicolon
  | '=' => some .equal
  | '+' => some .plus
  | '-' => some .minus
  | '/' => some .slash
  | '%' => some .percent
  | _ => none

/-- The loop of `lex_string` and `lex_quoted_identifier`: the text up to the closing quote,
and how many characters there are with it. -/
def quoted (quote : Char) : List Char → Option (List Char × Nat)
  | [] => none
  | [c] => if c = quote then some ([], 1) else none
  | c :: d :: rest =>
    if c = quote then
      if d = quote then (quoted quote rest).map fun found => (quote :: found.1, found.2 + 2)
      else some ([], 1)
    else (quoted quote (d :: rest)).map fun found => (c :: found.1, found.2 + 1)

/-- `lex_string`. -/
def lexString (l : Lexer) : Except SyntaxError (Token × Lexer) :=
  match quoted '\'' (l.rest.drop 1) with
  | some found => .ok (l.token (.string (String.ofList found.1)) (found.2 + 1))
  | none => .error (l.unterminated "unterminated string literal")

/-- `lex_quoted_identifier`. -/
def lexQuotedIdentifier (l : Lexer) : Except SyntaxError (Token × Lexer) :=
  match quoted '"' (l.rest.drop 1) with
  | some found => .ok (l.token (.identifier (String.ofList found.1) true) (found.2 + 1))
  | none => .error (l.unterminated "unterminated quoted identifier")

/-- `consume_ascii_digits`: how many. -/
def digits (cs : List Char) : Nat := (cs.takeWhile isDigit).length

/-- The length of a fraction, if there is one. -/
def fraction (cs : List Char) : Nat :=
  if cs.head? = some '.' ∧ (cs.drop 1).head?.any isDigit = true then 1 + digits (cs.drop 1) else 0

/-- The length of an exponent without its digits. -/
def exponent (cs : List Char) : Nat :=
  if cs.head? = some 'e' ∨ cs.head? = some 'E' then
    if (cs.drop 1).head? = some '+' ∨ (cs.drop 1).head? = some '-' then 2 else 1
  else 0

/-- The length of a number without its exponent. -/
def mantissa (cs : List Char) : Nat := digits cs + fraction (cs.drop (digits cs))

/-- A number of so many characters. -/
def number (l : Lexer) (n : Nat) : Token × Lexer :=
  l.token (.number (String.ofList (l.rest.take n))) n

/-- `lex_number`. -/
def lexNumber (l : Lexer) : Except SyntaxError (Token × Lexer) :=
  let start := mantissa l.rest + exponent (l.rest.drop (mantissa l.rest))
  if exponent (l.rest.drop (mantissa l.rest)) = 0 then .ok (l.number (mantissa l.rest))
  else if digits (l.rest.drop start) = 0 then
    .error (l.error "expected digits in numeric exponent" start)
  else .ok (l.number (start + digits (l.rest.drop start)))

/-- `is_identifier_start`. -/
def isIdentifierStart (ops : TextOps) (c : Char) : Bool := c = '_' || ops.isAlphabetic c

/-- `is_identifier_continue`. -/
def isIdentifierContinue (ops : TextOps) (c : Char) : Bool :=
  c = '_' || c = '$' || ops.isAlphanumeric c

/-- The token of a word without quotes. -/
def wordKind (ops : TextOps) (value : String) : TokenKind :=
  match Keyword.fromIdentifier value with
  | some keyword => .keyword keyword
  | none => .identifier (ops.toLowercase value) false

/-- `lex_identifier`. -/
def lexIdentifier (ops : TextOps) (l : Lexer) : Token × Lexer :=
  let n := 1 + ((l.rest.drop 1).takeWhile (isIdentifierContinue ops)).length
  l.token (wordKind ops (String.ofList (l.rest.take n))) n

/-- `next_token`. -/
def nextToken (ops : TextOps) (l : Lexer) : Except SyntaxError (Token × Lexer) :=
  match l.rest with
  | [] => .ok (l.token .eof 0)
  | c :: rest =>
    match single c with
    | some kind => .ok (l.token kind 1)
    | none =>
      if c = '<' then
        if rest.head? = some '=' then .ok (l.token .lessThanOrEqual 2)
        else if rest.head? = some '>' then .ok (l.token .notEqual 2)
        else .ok (l.token .lessThan 1)
      else if c = '>' then
        if rest.head? = some '=' then .ok (l.token .greaterThanOrEqual 2)
        else .ok (l.token .greaterThan 1)
      else if c = '!' then
        if rest.head? = some '=' then .ok (l.token .notEqual 2)
        else .error (l.error "expected '=' after '!'" 1)
      else if c = '\'' then l.lexString
      else if c = '"' then l.lexQuotedIdentifier
      else if isDigit c then l.lexNumber
      else if isIdentifierStart ops c then .ok (l.lexIdentifier ops)
      else .error (l.error s!"unexpected character '{c}'" 1)

/-- The loop of `tokenize`, for so many turns. -/
def tokens (ops : TextOps) : Nat → Lexer → Except SyntaxError (List Token)
  | 0, l => .ok [(l.token .eof 0).1]
  | turns + 1, l => do
      let l ← l.skipTrivia ops l.rest.length
      if l.rest = [] then return [(l.token .eof 0).1]
      else
        let next ← l.nextToken ops
        let tokens ← tokens ops turns next.2
        return next.1 :: tokens

end Lexer

/-- `tokenize`.  Each turn of its loop but the last reads a character at least. -/
def tokenize (ops : TextOps) (sql : String) : Except SyntaxError (List Token) :=
  Lexer.tokens ops (sql.toList.length + 1) ⟨sql.toList, 0⟩

/-! ## gaps -/

/-- White space and comments that are closed. -/
inductive Trivia (ops : TextOps) : List Char → Prop where
  | nil : Trivia ops []
  | space {c : Char} {rest : List Char} :
      ops.isWhitespace c = true → Trivia ops rest → Trivia ops (c :: rest)
  | line {body rest : List Char} :
      (∀ c ∈ body, c ≠ '\n') → Trivia ops rest → Trivia ops ('-' :: '-' :: (body ++ '\n' :: rest))
  | block {body rest : List Char} :
      Lexer.blockLength 1 body = some body.length → Trivia ops rest →
      Trivia ops ('/' :: '*' :: (body ++ rest))

/-- A gap at the end of the text: the last comment need not be closed by a new line. -/
def Trailing (ops : TextOps) (gap : List Char) : Prop :=
  Trivia ops gap ∨ ∃ front body, Trivia ops front ∧ (∀ c ∈ body, c ≠ '\n') ∧
    gap = front ++ '-' :: '-' :: body

theorem Trivia.append {ops : TextOps} {a b : List Char} (ha : Trivia ops a) (hb : Trivia ops b) :
    Trivia ops (a ++ b) := by
  induction ha with
  | nil => exact hb
  | space hc _ ih => exact .space hc ih
  | @line body rest hbody _ ih =>
    have := Trivia.line hbody ih
    simpa using this
  | @block body rest hbody _ ih =>
    have := Trivia.block hbody ih
    simpa using this

theorem Trivia.append_trailing {ops : TextOps} {a b : List Char} (ha : Trivia ops a)
    (hb : Trailing ops b) : Trailing ops (a ++ b) := by
  rcases hb with hb | ⟨front, body, hfront, hbody, rfl⟩
  · exact .inl (ha.append hb)
  · exact .inr ⟨a ++ front, body, ha.append hfront, hbody, by simp⟩

theorem trivia_spaces {ops : TextOps} {cs : List Char} (h : ∀ c ∈ cs, ops.isWhitespace c = true) :
    Trivia ops cs := by
  induction cs with
  | nil => exact .nil
  | cons c cs ih =>
    rw [List.forall_mem_cons] at h
    exact .space h.1 (ih h.2)

/-! ## how the lexer moves -/

/-- Reading some characters. -/
def Lexer.Reads (l : Lexer) (word : List Char) (l' : Lexer) : Prop :=
  l.rest = word ++ l'.rest ∧ l'.cursor = l.cursor + size word

namespace Lexer

variable {l l₁ l₂ : Lexer}

theorem reads_forward (l : Lexer) (n : Nat) : l.Reads (l.rest.take n) (l.forward n) :=
  ⟨(List.take_append_drop n l.rest).symm, rfl⟩

theorem Reads.trans {v w : List Char} (h : l.Reads v l₁) (h' : l₁.Reads w l₂) :
    l.Reads (v ++ w) l₂ := by
  refine ⟨by rw [h.1, h'.1, List.append_assoc], ?_⟩
  rw [h'.2, h.2, size_append, Nat.add_assoc]

/-- A span of the text that is still to be read, between characters. -/
def Within (l : Lexer) (span : Span) : Prop :=
  ∃ front word back, l.rest = front ++ word ++ back ∧
    span = ⟨l.cursor + size front, l.cursor + size front + size word⟩

theorem within_error (l : Lexer) (message : String) (n : Nat) : l.Within (l.error message n).span :=
  ⟨[], l.rest.take n, l.rest.drop n, by simp, rfl⟩

theorem within_unterminated (l : Lexer) (message : String) :
    l.Within (l.unterminated message).span :=
  ⟨[], l.rest, [], by simp, rfl⟩

theorem Reads.within {word : List Char} {span : Span} (h : l.Reads word l₁) (hs : l₁.Within span) :
    l.Within span := by
  obtain ⟨front, inner, back, hrest, rfl⟩ := hs
  refine ⟨word ++ front, inner, back, ?_, ?_⟩
  · rw [h.1, hrest]
    simp
  · rw [h.2, size_append, Nat.add_assoc]

/-- A block comment ends with two characters. -/
theorem two_le_blockLength {depth n : Nat} {cs : List Char} (h : blockLength depth cs = some n) :
    2 ≤ n := by
  fun_induction blockLength depth cs generalizing n <;> simp_all <;> grind

/-- A comment is found by what is in it. -/
theorem blockLength_take {depth n : Nat} {cs : List Char} (h : blockLength depth cs = some n) :
    blockLength depth (cs.take n) = some n ∧ (cs.take n).length = n := by
  fun_induction blockLength depth cs generalizing n with
  | case1 => cases h
  | case2 => cases h
  | case3 depth c d rest hopen ih =>
    obtain ⟨m, hm, rfl⟩ := Option.map_eq_some_iff.mp h
    obtain ⟨hm, hlen⟩ := ih hm
    rw [List.take_succ_cons, List.take_succ_cons, blockLength, if_pos hopen, hm]
    exact ⟨rfl, by rw [List.length_cons, List.length_cons, hlen]⟩
  | case4 c d rest hopen hclose =>
    cases h
    obtain ⟨rfl, rfl⟩ := hclose
    exact ⟨rfl, rfl⟩
  | case5 depth c d rest hopen hclose hdepth ih =>
    obtain ⟨m, hm, rfl⟩ := Option.map_eq_some_iff.mp h
    obtain ⟨hm, hlen⟩ := ih hm
    obtain ⟨rfl, rfl⟩ := hclose
    simp [blockLength, hdepth, hm, hlen]
  | case6 depth c d rest hopen hclose ih =>
    obtain ⟨m, hm, rfl⟩ := Option.map_eq_some_iff.mp h
    obtain ⟨k, rfl⟩ := Nat.exists_eq_add_of_le' (Nat.le_of_lt (two_le_blockLength hm))
    obtain ⟨hm, hlen⟩ := ih hm
    rw [List.take_succ_cons] at hm hlen
    rw [List.take_succ_cons, List.take_succ_cons, blockLength, if_neg hopen, if_neg hclose, hm]
    exact ⟨rfl, by rw [List.length_cons, hlen]⟩

/-- White space is a gap. -/
theorem reads_whitespace (ops : TextOps) (l : Lexer) :
    ∃ gap, Trivia ops gap ∧ l.Reads gap (l.forward (l.rest.takeWhile ops.isWhitespace).length) := by
  refine ⟨_, ?_, reads_forward l _⟩
  rw [Scanning.take_takeWhile_length]
  exact trivia_spaces fun c hc => List.mem_takeWhile_imp hc

theorem exists_of_startsWith {l : Lexer} {word : List Char} (h : l.startsWith word = true) :
    ∃ rest, l.rest = word ++ rest ∧ l.Reads word (l.forward word.length) := by
  obtain ⟨rest, hrest⟩ := List.isPrefixOf_iff_prefix.mp h
  have hreads := reads_forward l word.length
  rw [← hrest, List.take_left] at hreads
  exact ⟨rest, hrest.symm, hreads⟩

/-- Reading up to a new line or to the end. -/
theorem reads_toNewline (l : Lexer) :
    ∃ body l', l' = l.forward (l.rest.takeWhile (· ≠ '\n')).length ∧ l.Reads body l' ∧
      (∀ c ∈ body, c ≠ '\n') ∧ (l'.rest = [] ∨ ∃ rest, l'.rest = '\n' :: rest) := by
  refine ⟨_, _, rfl, reads_forward l _, ?_, ?_⟩
  · rw [Scanning.take_takeWhile_length]
    exact fun c hc => by simpa using List.mem_takeWhile_imp hc
  · rw [forward, Scanning.drop_takeWhile_length]
    cases hrest : l.rest.dropWhile (· ≠ '\n') with
    | nil => exact .inl rfl
    | cons c rest =>
      obtain rfl : c = '\n' := by simpa using Scanning.dropWhile_stops _ _ hrest
      exact .inr ⟨rest, rfl⟩

/-- A block comment is read whole. -/
theorem reads_block {l l' : Lexer} (h : l.startsWith ['/', '*'] = true)
    (hskip : l.skipBlockComment = .ok l') :
    ∃ body, blockLength 1 body = some body.length ∧ l.Reads ('/' :: '*' :: body) l' := by
  obtain ⟨rest, hrest, -⟩ := exists_of_startsWith h
  unfold skipBlockComment at hskip
  split at hskip
  · rename_i n hn
    cases hskip
    obtain ⟨htake, hlen⟩ := blockLength_take hn
    refine ⟨(l.rest.drop 2).take n, by rw [htake, hlen], ?_⟩
    have hreads := reads_forward l (n + 2)
    rw [hrest] at hreads ⊢
    exact hreads
  · cases hskip

/-- What stands between two tokens, or behind the last. -/
def Gap (ops : TextOps) (gap rest : List Char) : Prop :=
  Trivia ops gap ∨ rest = [] ∧ Trailing ops gap

theorem Gap.append {ops : TextOps} {a b rest : List Char} (ha : Trivia ops a)
    (hb : Gap ops b rest) :
    Gap ops (a ++ b) rest :=
  hb.imp ha.append fun h => ⟨h.1, ha.append_trailing h.2⟩

/-- A line comment before a gap that begins with its new line. -/
theorem Gap.line {ops : TextOps} {body gap rest : List Char} (hbody : ∀ c ∈ body, c ≠ '\n')
    (h : Gap ops ('\n' :: gap) rest) : Gap ops ('-' :: '-' :: (body ++ '\n' :: gap)) rest := by
  have htail : ∀ g, Trivia ops ('\n' :: g) → Trivia ops ('-' :: '-' :: (body ++ '\n' :: g)) := by
    intro g hg
    cases hg with
    | space _ hg => exact .line hbody hg
  rcases h with h | ⟨hrest, h | ⟨front, last, hfront, hlast, heq⟩⟩
  · exact .inl (htail gap h)
  · exact .inr ⟨hrest, .inl (htail gap h)⟩
  · cases front with
    | nil => cases heq
    | cons c front =>
      cases heq
      exact .inr ⟨hrest, .inr ⟨_, last, htail front hfront, hlast, by simp⟩⟩

/-- What is skipped is a gap, and white space does not follow it. -/
theorem skipTrivia_ok {ops : TextOps} {turns : Nat} {l l' : Lexer}
    (h : skipTrivia ops turns l = .ok l') :
    (∃ gap, l.Reads gap l' ∧ Gap ops gap l'.rest) ∧
      ∀ c rest, l'.rest = c :: rest → ops.isWhitespace c = false := by
  induction turns generalizing l with
  | zero =>
    cases h
    obtain ⟨gap, hgap, hreads⟩ := reads_whitespace ops l
    refine ⟨⟨gap, hreads, .inl hgap⟩, fun c rest hrest => ?_⟩
    rw [forward, Scanning.drop_takeWhile_length] at hrest
    exact Scanning.dropWhile_stops _ _ hrest
  | succ turns ih =>
    obtain ⟨space, hspace, hreads⟩ := reads_whitespace ops l
    rw [skipTrivia] at h
    simp only at h
    generalize hl₁ : l.forward (l.rest.takeWhile ops.isWhitespace).length = l₁ at h hreads
    split at h
    · rename_i hline
      obtain ⟨rest, -, htwo⟩ := exists_of_startsWith hline
      obtain ⟨body, l₃, hl₃, hbodyReads, hbody, hend⟩ := reads_toNewline (l₁.forward 2)
      rw [← hl₃] at h
      obtain ⟨⟨gap, hgapReads, hgap⟩, hstop⟩ := ih h
      refine ⟨⟨space ++ ('-' :: '-' :: (body ++ gap)), ?_, ?_⟩, hstop⟩
      · exact hreads.trans ((htwo.trans hbodyReads).trans hgapReads)
      · refine .append hspace ?_
        have hrest := hgapReads.1
        rcases hend with hnil | ⟨rest, hnewline⟩
        · -- the comment is the last of the text
          rw [hnil, eq_comm, List.append_eq_nil_iff] at hrest
          rw [hrest.1, List.append_nil]
          exact .inr ⟨hrest.2, .inr ⟨[], body, .nil, hbody, rfl⟩⟩
        · rw [hnewline] at hrest
          cases gap with
          | nil =>
            have := hstop _ _ hrest.symm
            rw [ops.newline_isWhitespace] at this
            cases this
          | cons c gap =>
            cases hrest
            exact .line hbody hgap
    · split at h
      · rename_i hblock
        obtain ⟨l₂, hskip, h⟩ := Fallible.bind_eq_ok.mp h
        obtain ⟨body, hbody, hblockReads⟩ := reads_block hblock hskip
        obtain ⟨⟨gap, hgapReads, hgap⟩, hstop⟩ := ih h
        refine ⟨⟨space ++ (('/' :: '*' :: body) ++ gap), ?_, ?_⟩, hstop⟩
        · exact hreads.trans (hblockReads.trans hgapReads)
        · refine .append hspace (.append ?_ hgap)
          simpa using Trivia.block hbody .nil
      · cases h
        refine ⟨⟨space, hreads, .inl hspace⟩, fun c rest hrest => ?_⟩
        rw [← hl₁, forward, Scanning.drop_takeWhile_length] at hrest
        exact Scanning.dropWhile_stops _ _ hrest

/-- An open comment is blamed where it is. -/
theorem skipTrivia_error {ops : TextOps} {turns : Nat} {l : Lexer} {e : SyntaxError}
    (h : skipTrivia ops turns l = .error e) : l.Within e.span := by
  induction turns generalizing l with
  | zero => cases h
  | succ turns ih =>
    have hreads := reads_forward l (l.rest.takeWhile ops.isWhitespace).length
    rw [skipTrivia] at h
    simp only at h
    generalize l.forward (l.rest.takeWhile ops.isWhitespace).length = l₁ at h hreads
    refine hreads.within ?_
    split at h
    · exact ((reads_forward l₁ 2).trans (reads_forward _ _)).within (ih h)
    · split at h
      · unfold skipBlockComment at h
        split at h
        · exact (reads_forward l₁ _).within (ih h)
        · cases h
          exact within_unterminated l₁ _
      · cases h

/-- A result of the lexer that is in order: a token of the characters that follow, or an
error within the text. -/
def Sound (l : Lexer) : Except SyntaxError (Token × Lexer) → Prop
  | .ok next => ∃ kind n, kind ≠ .eof ∧ 0 < n ∧ next = l.token kind n
  | .error e => l.Within e.span

theorem sound_token (l : Lexer) {kind : TokenKind} {n : Nat} (hkind : kind ≠ .eof) (hn : 0 < n) :
    l.Sound (.ok (l.token kind n)) := ⟨kind, n, hkind, hn, rfl⟩

theorem sound_error (l : Lexer) (message : String) (n : Nat) :
    l.Sound (.error (l.error message n)) := within_error l message n

/-- `lex_string`. -/
theorem sound_lexString (l : Lexer) : l.Sound l.lexString := by
  unfold lexString
  split
  · exact l.sound_token (by simp) (Nat.succ_pos _)
  · exact within_unterminated l _

theorem sound_lexQuotedIdentifier (l : Lexer) : l.Sound l.lexQuotedIdentifier := by
  unfold lexQuotedIdentifier
  split
  · exact l.sound_token (by simp) (Nat.succ_pos _)
  · exact within_unterminated l _

/-- `lex_number`. -/
theorem sound_lexNumber {l : Lexer} {c : Char} {rest : List Char} (hrest : l.rest = c :: rest)
    (hc : isDigit c = true) : l.Sound l.lexNumber := by
  have hmantissa : 0 < mantissa l.rest := by simp [mantissa, digits, hrest, hc]
  unfold lexNumber
  simp only
  split
  · exact l.sound_token (by simp) hmantissa
  · split
    · exact l.sound_error _ _
    · exact l.sound_token (by simp) (by omega)

/-- `lex_identifier`. -/
theorem sound_lexIdentifier (ops : TextOps) (l : Lexer) : l.Sound (.ok (l.lexIdentifier ops)) := by
  refine l.sound_token ?_ (Nat.lt_of_lt_of_le Nat.zero_lt_one (Nat.le_add_right _ _))
  unfold wordKind
  split <;> simp

theorem single_ne_eof {c : Char} {kind : TokenKind} (h : single c = some kind) : kind ≠ .eof := by
  unfold single at h
  split at h <;> cases h <;> simp

/-- **One token**, by the character it starts with. -/
theorem sound_nextToken {ops : TextOps} {l : Lexer} {c : Char} {rest : List Char}
    (hrest : l.rest = c :: rest) : l.Sound (l.nextToken ops) := by
  unfold nextToken
  rw [hrest]
  simp only
  cases hsingle : single c with
  | some kind => exact l.sound_token (single_ne_eof hsingle) Nat.zero_lt_one
  | none =>
    simp only
    split
    · split
      · exact l.sound_token (by simp) Nat.zero_lt_two
      · split
        · exact l.sound_token (by simp) Nat.zero_lt_two
        · exact l.sound_token (by simp) Nat.zero_lt_one
    split
    · split
      · exact l.sound_token (by simp) Nat.zero_lt_two
      · exact l.sound_token (by simp) Nat.zero_lt_one
    split
    · split
      · exact l.sound_token (by simp) Nat.zero_lt_two
      · exact l.sound_error _ _
    split
    · exact l.sound_lexString
    split
    · exact l.sound_lexQuotedIdentifier
    split
    · rename_i hdigit
      exact sound_lexNumber hrest hdigit
    split
    · exact l.sound_lexIdentifier ops
    · exact l.sound_error _ _

end Lexer

/-! ## whole texts -/

/-- The tokens of a text: words between gaps, each with the place of its word, and the
end. -/
inductive Lexes (ops : TextOps) : List Char → Nat → List Token → Prop where
  | eof {gap : List Char} {offset : Nat} :
      Trailing ops gap → Lexes ops gap offset [⟨.eof, ⟨offset + size gap, offset + size gap⟩⟩]
  | token {gap word rest : List Char} {offset : Nat} {kind : TokenKind} {tokens : List Token} :
      Trivia ops gap → word ≠ [] → kind ≠ .eof →
      Lexes ops rest (offset + size gap + size word) tokens →
      Lexes ops (gap ++ word ++ rest) offset
        (⟨kind, ⟨offset + size gap, offset + size gap + size word⟩⟩ :: tokens)

namespace Lexer

/-- **The loop of tokens** returns those of the text, if it has enough turns. -/
theorem lexes_tokens {ops : TextOps} {turns : Nat} {l : Lexer} {tokens : List Token}
    (hturns : l.rest.length < turns) (h : l.tokens ops turns = .ok tokens) :
    Lexes ops l.rest l.cursor tokens := by
  induction turns generalizing l tokens with
  | zero => cases hturns
  | succ turns ih =>
    obtain ⟨l₁, hskip, h⟩ := Fallible.bind_eq_ok.mp h
    obtain ⟨⟨gap, hreads, hgap⟩, -⟩ := skipTrivia_ok hskip
    split at h
    · rename_i hnil
      cases h
      rw [hreads.1, hnil, List.append_nil]
      have hcursor : (l₁.token .eof 0).1 =
          ⟨.eof, ⟨l.cursor + size gap, l.cursor + size gap⟩⟩ := by
        simp [token, forward, hreads.2]
      rw [hcursor]
      exact .eof (hgap.elim .inl And.right)
    · rename_i hne
      obtain ⟨c, rest, hrest⟩ := List.exists_cons_of_ne_nil hne
      obtain ⟨next, hnext, h⟩ := Fallible.bind_eq_ok.mp h
      obtain ⟨tokens, htokens, h⟩ := Fallible.bind_eq_ok.mp h
      cases h
      have hsound := @sound_nextToken ops l₁ c rest hrest
      rw [hnext] at hsound
      obtain ⟨kind, n, hkind, hn, rfl⟩ := hsound
      have hword := hreads.trans (reads_forward l₁ n)
      have hne' : l₁.rest.take n ≠ [] := by
        rw [hrest]
        exact fun h => by simp [Nat.ne_of_gt hn] at h
      have htrivia : Trivia ops gap := hgap.resolve_right fun h => hne h.1
      have hlen : (l₁.forward n).rest.length < turns := by
        have := congrArg List.length hword.1
        have := List.length_pos_iff.mpr hne'
        simp only [List.length_append] at *
        omega
      have hrest' := ih hlen htokens
      rw [hword.2, size_append, ← Nat.add_assoc] at hrest'
      have hspan : (l₁.token kind n).1 = ⟨kind, ⟨l.cursor + size gap,
          l.cursor + size gap + size (l₁.rest.take n)⟩⟩ := by
        rw [token, hword.2, hreads.2, size_append, ← Nat.add_assoc]
      rw [hword.1, hspan]
      exact .token htrivia hne' hkind hrest'

/-- An error of the loop lies in the text. -/
theorem within_tokens {ops : TextOps} {turns : Nat} {l : Lexer} {e : SyntaxError}
    (h : l.tokens ops turns = .error e) : l.Within e.span := by
  induction turns generalizing l with
  | zero => cases h
  | succ turns ih =>
    rcases Fallible.bind_eq_error.mp h with hskip | ⟨l₁, hskip, h⟩
    · exact skipTrivia_error hskip
    · obtain ⟨⟨gap, hreads, -⟩, -⟩ := skipTrivia_ok hskip
      refine hreads.within ?_
      split at h
      · cases h
      · rename_i hne
        obtain ⟨c, rest, hrest⟩ := List.exists_cons_of_ne_nil hne
        have hsound := @sound_nextToken ops l₁ c rest hrest
        rcases Fallible.bind_eq_error.mp h with hnext | ⟨next, hnext, h⟩
        · rwa [hnext] at hsound
        · rw [hnext] at hsound
          obtain ⟨kind, n, -, -, rfl⟩ := hsound
          refine (reads_forward l₁ n).within (ih ?_)
          rcases Fallible.bind_eq_error.mp h with htokens | ⟨tokens, -, h⟩
          · exact htokens
          · cases h

end Lexer

end QuantaDb.Syntax
