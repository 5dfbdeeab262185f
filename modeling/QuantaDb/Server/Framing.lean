import QuantaDb.Lib.Looping
import QuantaDb.Storage.Page

/-!
# QuantaDb.Server.Framing

Newline-delimited frames of a connection (`server.rs`).

A reader hands out a stream in the chunks in which it arrives.
`read_bounded_frame` collects one frame from them, whatever the chunks cut
through, and gives up before a frame grows beyond the maximum.  Calling it until
the stream ends or a frame is too large gives the lines of the stream
(`framing_exact`), and no call holds more than the maximum.
-/

namespace QuantaDb.Server

open Looping

def lineFeed : UInt8 := 10
def carriageReturn : UInt8 := 13

/-! ## the reader -/

/-- `AsyncBufRead`: what is still to come, in chunks of at least one byte.  The first is
in the buffer. -/
@[ext] structure Reader where
  chunks : List Bytes
  nonempty : ∀ chunk ∈ chunks, chunk ≠ []

namespace Reader

/-- All that is still to come. -/
def stream (reader : Reader) : Bytes := reader.chunks.flatten

/-- `fill_buf`; empty at the end of the stream only. -/
def fillBuf (reader : Reader) : Bytes := reader.chunks.headD []

/-- Without the first bytes of the buffer. -/
def consumeChunks (count : Nat) : List Bytes → List Bytes
  | [] => []
  | chunk :: chunks => if count < chunk.length then chunk.drop count :: chunks else chunks

theorem consumeChunks_nonempty {count : Nat} {chunks : List Bytes}
    (h : ∀ chunk ∈ chunks, chunk ≠ []) : ∀ chunk ∈ consumeChunks count chunks, chunk ≠ [] := by
  cases chunks with
  | nil => exact h
  | cons first chunks =>
    rw [List.forall_mem_cons] at h
    rw [consumeChunks]
    split
    · next hlt =>
      rw [List.forall_mem_cons]
      exact ⟨by simpa using hlt, h.2⟩
    · exact h.2

/-- `consume`. -/
def consume (reader : Reader) (count : Nat) : Reader :=
  ⟨consumeChunks count reader.chunks, consumeChunks_nonempty reader.nonempty⟩

theorem fillBuf_eq_nil {reader : Reader} (h : reader.fillBuf = []) : reader.stream = [] := by
  obtain ⟨chunks, hne⟩ := reader
  cases chunks with
  | nil => rfl
  | cons chunk chunks => exact absurd h (hne chunk List.mem_cons_self)

/-- The buffer and what comes behind it. -/
theorem stream_eq (reader : Reader) :
    reader.stream = reader.fillBuf ++ (reader.consume reader.fillBuf.length).stream := by
  obtain ⟨chunks, hne⟩ := reader
  cases chunks with
  | nil => rfl
  | cons chunk chunks => simp [stream, fillBuf, consume, consumeChunks]

/-- Consuming a part of the buffer. -/
theorem stream_consume {reader : Reader} {count : Nat} (h : count ≤ reader.fillBuf.length) :
    (reader.consume count).stream = reader.stream.drop count := by
  obtain ⟨chunks, hne⟩ := reader
  cases chunks with
  | nil => simp [stream, consume, consumeChunks]
  | cons chunk chunks =>
    simp only [stream, fillBuf, List.headD_cons, consume, consumeChunks, List.flatten_cons] at h ⊢
    split
    · rw [List.flatten_cons, List.drop_append_of_le_length h]
    · have hall : count = chunk.length := by omega
      rw [hall, List.drop_left]

theorem length_consume_lt {reader : Reader} (h : reader.fillBuf ≠ []) :
    (reader.consume reader.fillBuf.length).chunks.length < reader.chunks.length := by
  obtain ⟨chunks, hne⟩ := reader
  cases chunks with
  | nil => exact absurd rfl h
  | cons chunk chunks => simp [fillBuf, consume, consumeChunks]

end Reader

/-! ## one frame -/

/-- `FrameReadError`; a reader of given chunks does not fail, so `Io` is left out. -/
inductive FrameReadError where
  | tooLarge
deriving DecidableEq, Repr

/-- The result of `read_bounded_frame`. -/
abbrev FrameResult := Except FrameReadError (Option Bytes)

/-- A frame without the carriage return at its end. -/
def dropReturn (frame : Bytes) : Bytes :=
  if frame.getLast? = some carriageReturn then frame.dropLast else frame

/-- A turn of `read_bounded_frame`, which notes the length of the frame after each copy.
A frame and a buffer have fewer than `2 ^ 63` bytes, so their lengths add up without
saturating. -/
def frameTurn (maximum : Nat) : Bytes × Reader → Turn Nat (Bytes × Reader) (FrameResult × Reader)
  | (frame, reader) =>
    let available := reader.fillBuf
    if available = [] then
      .done [] (.ok (if frame = [] then none else some frame), reader)
    else
      let newline := available.idxOf? lineFeed
      let payloadLength := newline.getD available.length
      let consumed := newline.elim available.length (· + 1)
      if maximum < frame.length + payloadLength then
        .done [] (.error .tooLarge, reader.consume consumed)
      else
        let frame := frame ++ available.take payloadLength
        if newline.isSome then
          .done [frame.length] (.ok (some (dropReturn frame)), reader.consume consumed)
        else .next [frame.length] (frame, reader.consume consumed)

/-- A call of `read_bounded_frame`. -/
def Call (maximum : Nat) (reader : Reader) (result : FrameResult) (after : Reader) : Prop :=
  Ends (frameTurn maximum) ([], reader) (result, after)

/-- The results of calls up to the first one without a frame. -/
inductive Calls (maximum : Nat) : Reader → List FrameResult → Prop
  | ended {reader after : Reader} : Call maximum reader (.ok none) after →
      Calls maximum reader [.ok none]
  | tooLarge {reader after : Reader} : Call maximum reader (.error .tooLarge) after →
      Calls maximum reader [.error .tooLarge]
  | frame {reader after : Reader} {frame : Bytes} {results : List FrameResult} :
      Call maximum reader (.ok (some frame)) after → Calls maximum after results →
      Calls maximum reader (.ok (some frame) :: results)

/-! ## the lines of a stream -/

/-- What a stream gives that was split at the newlines: the last piece is not terminated,
and no frame if it is empty. -/
def frames (maximum : Nat) : List Bytes → List FrameResult
  | [] => [.ok none]
  | [rest] =>
    if rest = [] then [.ok none]
    else if maximum < rest.length then [.error .tooLarge]
    else [.ok (some rest), .ok none]
  | line :: lines =>
    if maximum < line.length then [.error .tooLarge]
    else .ok (some (dropReturn line)) :: frames maximum lines

variable {maximum : Nat} {frame : Bytes} {reader : Reader}

theorem idxOf_line {line rest : Bytes} (hline : lineFeed ∉ line) :
    (line ++ lineFeed :: rest).idxOf? lineFeed = some line.length := by
  induction line with
  | nil => simp [List.idxOf?_cons]
  | cons byte line ih =>
    rw [List.mem_cons, not_or] at hline
    rw [List.cons_append, List.idxOf?_cons, if_neg (by simpa using Ne.symm hline.1), ih hline.2]
    rfl

/-- The first line of a stream. -/
theorem line_inj {line line' rest rest' : Bytes} (hline : lineFeed ∉ line)
    (hline' : lineFeed ∉ line') (h : line ++ lineFeed :: rest = line' ++ lineFeed :: rest') :
    line = line' := by
  have hpos := congrArg (List.idxOf? lineFeed) h
  rw [idxOf_line hline, idxOf_line hline', Option.some.injEq] at hpos
  exact (List.append_inj h hpos).1

/-- Bytes without a newline in front of a stream belong to its first line. -/
theorem line_of_append {buffer later line rest : Bytes} (hbuffer : lineFeed ∉ buffer)
    (h : line ++ lineFeed :: rest = buffer ++ later) :
    ∃ more, line = buffer ++ more ∧ later = more ++ lineFeed :: rest := by
  rcases List.append_eq_append_iff.mp h with ⟨more, hbuf, hrest⟩ | ⟨more, hline, hlater⟩
  · cases more with
    | nil => exact ⟨[], by simpa using hbuf.symm, by simpa using hrest.symm⟩
    | cons byte more =>
      rw [List.cons_append, List.cons.injEq] at hrest
      refine absurd ?_ hbuffer
      rw [hbuf, ← hrest.1]
      simp
  · exact ⟨more, hline, hlater⟩

/-- A turn whose buffer has a newline. -/
theorem frameTurn_newline {line rest : Bytes} (h : reader.fillBuf = line ++ lineFeed :: rest)
    (hline : lineFeed ∉ line) :
    frameTurn maximum (frame, reader) =
      if maximum < frame.length + line.length then
        .done [] (.error .tooLarge, reader.consume (line.length + 1))
      else .done [(frame ++ line).length]
        (.ok (some (dropReturn (frame ++ line))), reader.consume (line.length + 1)) := by
  simp [frameTurn, h, idxOf_line hline]

/-- A turn whose buffer has none. -/
theorem frameTurn_none (hne : reader.fillBuf ≠ []) (h : lineFeed ∉ reader.fillBuf) :
    frameTurn maximum (frame, reader) =
      if maximum < frame.length + reader.fillBuf.length then
        .done [] (.error .tooLarge, reader.consume reader.fillBuf.length)
      else .next [(frame ++ reader.fillBuf).length]
        (frame ++ reader.fillBuf, reader.consume reader.fillBuf.length) := by
  simp [frameTurn, hne, List.idxOf?_eq_none_iff.mpr h]

/-- **A call on a stream with a newline** gives the line in front of it. -/
theorem call_line {line rest : Bytes} (h : reader.stream = line ++ lineFeed :: rest)
    (hline : lineFeed ∉ line) :
    ∃ after, if maximum < frame.length + line.length then
        Ends (frameTurn maximum) (frame, reader) (.error .tooLarge, after)
      else Ends (frameTurn maximum) (frame, reader)
          (.ok (some (dropReturn (frame ++ line))), after) ∧ after.stream = rest := by
  induction hn : reader.chunks.length using Nat.strongRecOn generalizing frame reader line with
  | ind n ih =>
    have hstream := reader.stream_eq
    rw [h] at hstream
    by_cases hmem : lineFeed ∈ reader.fillBuf
    · -- the line ends in this buffer
      obtain ⟨line', rest', hbuf, hline'⟩ := List.eq_append_cons_of_mem hmem
      have hsame : line = line' := by
        rw [hbuf, List.append_assoc, List.cons_append] at hstream
        exact line_inj hline hline' hstream
      subst hsame
      have hturn := @frameTurn_newline maximum frame reader line rest' hbuf hline
      refine ⟨reader.consume (line.length + 1), ?_⟩
      split
      · next hlarge => exact .done (hturn.trans (if_pos hlarge))
      · next hlarge =>
        refine ⟨.done (hturn.trans (if_neg hlarge)), ?_⟩
        rw [Reader.stream_consume (by rw [hbuf]; simp), h, List.drop_append]
        simp
    · -- the whole buffer belongs to the line
      obtain ⟨more, rfl, hlater⟩ := line_of_append hmem hstream
      have hne : reader.fillBuf ≠ [] := by
        intro hnil
        have := Reader.fillBuf_eq_nil hnil
        rw [h] at this
        simp at this
      have hturn := @frameTurn_none maximum frame reader hne hmem
      have hlen : frame.length + (reader.fillBuf ++ more).length =
          (frame ++ reader.fillBuf).length + more.length := by
        simp only [List.length_append]
        omega
      rw [List.mem_append, not_or] at hline
      obtain ⟨after, hafter⟩ := @ih _ (hn ▸ Reader.length_consume_lt hne)
        (frame ++ reader.fillBuf) (reader.consume reader.fillBuf.length) more hlater hline.2 rfl
      rw [← hlen] at hafter
      by_cases hbuffer : maximum < frame.length + reader.fillBuf.length
      · -- too large already with this buffer
        refine ⟨reader.consume reader.fillBuf.length, ?_⟩
        rw [if_pos (by rw [List.length_append]; omega)]
        exact .done (hturn.trans (if_pos hbuffer))
      · rw [if_neg hbuffer] at hturn
        refine ⟨after, ?_⟩
        split
        · next hlarge =>
          rw [if_pos hlarge] at hafter
          exact .next hturn hafter
        · next hlarge =>
          rw [if_neg hlarge, List.append_assoc] at hafter
          exact ⟨.next hturn hafter.1, hafter.2⟩

/-- **A call on a stream without a newline** gives what is left of it. -/
theorem call_rest (h : lineFeed ∉ reader.stream) (hframe : frame.length ≤ maximum) :
    ∃ after, if maximum < frame.length + reader.stream.length then
        Ends (frameTurn maximum) (frame, reader) (.error .tooLarge, after)
      else Ends (frameTurn maximum) (frame, reader)
          (.ok (if frame ++ reader.stream = [] then none else some (frame ++ reader.stream)),
            after) ∧ after.stream = [] := by
  induction hn : reader.chunks.length using Nat.strongRecOn generalizing frame reader with
  | ind n ih =>
    by_cases hnil : reader.fillBuf = []
    · have hstream := Reader.fillBuf_eq_nil hnil
      refine ⟨reader, ?_⟩
      rw [hstream, List.append_nil, List.length_nil, if_neg (by omega)]
      have hturn : frameTurn maximum (frame, reader) =
          .done [] (.ok (if frame = [] then none else some frame), reader) := by
        simp [frameTurn, hnil]
      exact ⟨.done hturn, rfl⟩
    · have hstream := reader.stream_eq
      rw [hstream, List.mem_append, not_or] at h
      have hturn := @frameTurn_none maximum frame reader hnil h.1
      have hlen := congrArg List.length hstream
      rw [List.length_append] at hlen
      by_cases hbuffer : maximum < frame.length + reader.fillBuf.length
      · refine ⟨reader.consume reader.fillBuf.length, ?_⟩
        rw [if_pos (by omega)]
        exact .done (hturn.trans (if_pos hbuffer))
      · rw [if_neg hbuffer] at hturn
        obtain ⟨after, hafter⟩ := @ih _ (hn ▸ Reader.length_consume_lt hnil)
          (frame ++ reader.fillBuf) (reader.consume reader.fillBuf.length) h.2
          (by rw [List.length_append]; omega) rfl
        rw [List.append_assoc, ← hstream, List.length_append, Nat.add_assoc, ← hlen] at hafter
        refine ⟨after, ?_⟩
        split
        · next hlarge =>
          rw [if_pos hlarge] at hafter
          exact .next hturn hafter
        · next hlarge =>
          rw [if_neg hlarge] at hafter
          exact ⟨.next hturn hafter.1, hafter.2⟩

/-! ## all frames -/

theorem frames_cons {line : Bytes} {lines : List Bytes} (h : lines ≠ []) :
    frames maximum (line :: lines) = if maximum < line.length then [.error .tooLarge]
      else .ok (some (dropReturn line)) :: frames maximum lines := by
  cases lines with
  | nil => exact absurd rfl h
  | cons _ _ => rfl

theorem calls_of_nil (h : reader.stream = []) : Calls maximum reader [.ok none] := by
  obtain ⟨after, hafter⟩ := @call_rest maximum [] reader (by simp [h]) (Nat.zero_le _)
  rw [h, if_neg (by simp)] at hafter
  exact .ended hafter.1

/-- The calls on a stream give its lines. -/
theorem calls_frames (maximum : Nat) (reader : Reader) :
    Calls maximum reader (frames maximum (reader.stream.splitOn lineFeed)) := by
  induction hn : reader.stream.length using Nat.strongRecOn generalizing reader with
  | ind n ih =>
    by_cases hmem : lineFeed ∈ reader.stream
    · obtain ⟨line, rest, hstream, hline⟩ := List.eq_append_cons_of_mem hmem
      obtain ⟨after, hafter⟩ := @call_line maximum [] reader line rest hstream hline
      rw [List.length_nil, Nat.zero_add, List.nil_append] at hafter
      rw [hstream, List.splitOn_append_cons_self_of_not_mem hline,
        frames_cons (List.splitOn_ne_nil _ _)]
      split
      · next hlarge =>
        rw [if_pos hlarge] at hafter
        exact .tooLarge hafter
      · next hlarge =>
        rw [if_neg hlarge] at hafter
        obtain ⟨hcall, rfl⟩ := hafter
        refine .frame hcall (ih _ ?_ after rfl)
        rw [← hn, hstream, List.length_append, List.length_cons]
        omega
    · rw [List.splitOn_eq_singleton hmem, frames]
      obtain ⟨after, hafter⟩ := @call_rest maximum [] reader hmem (Nat.zero_le _)
      rw [List.length_nil, Nat.zero_add, List.nil_append] at hafter
      split
      · next hnil => exact calls_of_nil hnil
      · next hnil =>
        rw [if_neg hnil] at hafter
        split
        · next hlarge =>
          rw [if_pos hlarge] at hafter
          exact .tooLarge hafter
        · next hlarge =>
          rw [if_neg hlarge] at hafter
          exact .frame hafter.1 (calls_of_nil hafter.2)

/-- Calls have one list of results. -/
theorem Calls.unique {results results' : List FrameResult} (h : Calls maximum reader results)
    (h' : Calls maximum reader results') : results = results' := by
  induction h generalizing results' with
  | ended hcall =>
    cases h' with
    | ended _ => rfl
    | tooLarge hcall' => cases hcall.unique hcall'
    | frame hcall' _ => cases hcall.unique hcall'
  | tooLarge hcall =>
    cases h' with
    | ended hcall' => cases hcall.unique hcall'
    | tooLarge _ => rfl
    | frame hcall' _ => cases hcall.unique hcall'
  | frame hcall _ ih =>
    cases h' with
    | ended hcall' => cases hcall.unique hcall'
    | tooLarge hcall' => cases hcall.unique hcall'
    | frame hcall' hrest =>
      cases hcall.unique hcall'
      rw [ih hrest]

/-- No turn makes the frame longer than the maximum. -/
theorem frameTurn_noted {s : Bytes × Reader} (maximum : Nat) :
    (∀ noted s', frameTurn maximum s = .next noted s' → ∀ size ∈ noted, size ≤ maximum) ∧
      ∀ noted result, frameTurn maximum s = .done noted result → ∀ size ∈ noted,
      size ≤ maximum := by
  obtain ⟨frame, reader⟩ := s
  by_cases hnil : reader.fillBuf = []
  · simp [frameTurn, hnil]
  · by_cases hmem : lineFeed ∈ reader.fillBuf
    · obtain ⟨line, rest, hbuf, hline⟩ := List.eq_append_cons_of_mem hmem
      rw [frameTurn_newline hbuf hline]
      split
      · simp
      · simp
        omega
    · rw [frameTurn_none hnil hmem]
      split
      · simp
      · simp
        omega

/-- **Framing.**  However a stream is cut into chunks, the calls up to the first without a
frame give its lines; and no call holds a frame longer than the maximum. -/
theorem framing_exact (maximum : Nat) (reader : Reader) :
    (∀ results, Calls maximum reader results ↔
      results = frames maximum (reader.chunks.flatten.splitOn lineFeed)) ∧
    ∀ sizes result, Returns (frameTurn maximum) ([], reader) sizes result →
      ∀ size ∈ sizes, size ≤ maximum := by
  refine ⟨fun results => ⟨fun h => h.unique (calls_frames maximum reader), ?_⟩, ?_⟩
  · rintro rfl
    exact calls_frames maximum reader
  · intro sizes result h
    have hinv := @Returns.invariant _ _ _ _ (fun _ noted => ∀ size ∈ noted, size ≤ maximum)
      (fun noted _ => ∀ size ∈ noted, size ≤ maximum) ?_ ?_ _ _ [] _ h (by simp)
    · exact hinv
    · intro s s' noted before hbefore hturn
      exact List.forall_mem_append.mpr ⟨hbefore, (frameTurn_noted maximum).1 noted s' hturn⟩
    · intro s noted before result hbefore hturn
      exact List.forall_mem_append.mpr ⟨hbefore, (frameTurn_noted maximum).2 noted result hturn⟩

/-- A carriage return and its newline in different chunks, and a last line without one. -/
example : frames 3 ([[97, 98, 13], [10, 99], [13]].flatten.splitOn lineFeed) =
    [.ok (some [97, 98]), .ok (some [99, 13]), .ok none] := by
  decide

end QuantaDb.Server
