import QuantaDb.Lib.Fallible
import QuantaDb.Lib.LittleEndian
import QuantaDb.Mvcc.Machine

/-!
# QuantaDb.Mvcc.Record

Version records as bytes (`record.rs`), and pages that pack them.

A page is filled by writers that were each given an offset, in whatever order
they come, so it may have gaps that are still zero.  `Renders` describes such a
page by the records that were given a place on it.  `decode_page` walks from the
start and stops at the first gap (`decodePage_renders`).
-/

namespace QuantaDb.Mvcc

open Fallible LittleEndian

/-! ## the codec -/

/-- `b"QNMV"`. -/
def recordMagic : Bytes := [81, 78, 77, 86]

def recordFormatVersion : Nat := 1

def flagTombstone : Nat := 1

def reservedOffset : Nat := 24

/-- `VersionRecord`. -/
structure VersionRecord where
  timestamp : Nat
  key : Key
  value : Option Bytes
deriving DecidableEq, Repr

/-- Four hexadecimal digits, as `{:#06x}` prints them. -/
def hexWord (n : Nat) : String := "0x" ++ String.ofList ((Nat.toDigits 16 n).leftpad 4 '0')

namespace VersionRecord

/-- The bytes of a record. -/
def bytes (r : VersionRecord) : Bytes :=
  recordMagic ++ (encode 2 recordFormatVersion ++
    (encode 2 (if r.value.isNone then flagTombstone else 0) ++ (encode 8 r.timestamp ++
      (encode 4 r.key.length ++ (encode 4 (r.value.getD []).length ++
        (List.replicate 8 0 ++ (r.key ++ r.value.getD [])))))))

/-- `VersionRecord::encode`. -/
def encode (r : VersionRecord) : Except TransactionError Bytes :=
  (validateSize r.key r.value).map fun _ => r.bytes

def corrupt (pageId : PageId) (reason : String) : TransactionError := .corruptRecord pageId reason

/-- `VersionRecord::decode_at`, on the bytes from the offset on. -/
def decodeAt (pageId : PageId) (bytes : Bytes) :
    Except TransactionError (Option (VersionRecord × Nat)) :=
  if bytes.length < 4 ∨ bytes.take 4 ≠ recordMagic then .ok none
  else if bytes.length < recordHeaderSize then
    .error (corrupt pageId "record is shorter than its header")
  else
    let version := readAt bytes 4 2
    let flags := readAt bytes 6 2
    let timestamp := readAt bytes 8 8
    let keyLength := readAt bytes 16 4
    let valueLength := readAt bytes 20 4
    let expectedLength := recordHeaderSize + keyLength + valueLength
    let tombstone := flags % 2 = 1
    if version ≠ recordFormatVersion then
      .error (corrupt pageId s!"unsupported record format version {version}")
    else if flags / 2 ≠ 0 then .error (corrupt pageId ("unknown flags " ++ hexWord flags))
    else if ((bytes.drop reservedOffset).take 8).any (· != 0) then
      .error (corrupt pageId "reserved header bytes are not zero")
    else if timestamp = 0 then .error (corrupt pageId "commit timestamp cannot be zero")
    else if bytes.length < expectedLength then
      .error (corrupt pageId
        s!"record length mismatch: header declares {expectedLength}, page contains {bytes.length}")
    else if tombstone ∧ valueLength ≠ 0 then
      .error (corrupt pageId "tombstone contains a value")
    else
      let key := (bytes.drop recordHeaderSize).take keyLength
      let value := (bytes.drop (recordHeaderSize + keyLength)).take valueLength
      .ok (some (⟨timestamp, key, if tombstone then none else some value⟩, expectedLength))

/-- The loop of `decode_page`; a record takes at least a byte, so the length of the
page bounds the turns. -/
def decodeLoop (pageId : PageId) : Nat → Bytes → Except TransactionError (List VersionRecord)
  | 0, _ => .ok []
  | fuel + 1, bytes =>
    match decodeAt pageId bytes with
    | .error error => .error error
    | .ok none => .ok []
    | .ok (some (record, length)) =>
      (decodeLoop pageId fuel (bytes.drop length)).map fun records => record :: records

/-- `VersionRecord::decode_page`. -/
def decodePage (pageId : PageId) (bytes : Bytes) : Except TransactionError (List VersionRecord) :=
  decodeLoop pageId (bytes.length + 1) bytes

def size (r : VersionRecord) : Nat := recordHeaderSize + r.key.length + (r.value.getD []).length

/-- A record that a commit may write. -/
structure Valid (r : VersionRecord) : Prop where
  positive : 0 < r.timestamp
  timestamp : r.timestamp < 2 ^ 64
  fits : r.size ≤ maxPagePayload

@[simp] theorem length_bytes (r : VersionRecord) : r.bytes.length = r.size := by
  simp [bytes, size, recordMagic, recordHeaderSize]
  omega

theorem validateSize_ok {key : Key} {value : Option Bytes} :
    validateSize key value = .ok () ↔
      recordHeaderSize + key.length + (value.getD []).length ≤ maxPagePayload := by
  have hlen : (value.map List.length).getD 0 = (value.getD []).length := by
    cases value <;> rfl
  unfold validateSize
  simp only [hlen]
  split
  · next h => simp; omega
  · next h => simp; omega

/-- The fields of a record, whatever follows it. -/
theorem drop_take_bytes (r : VersionRecord) (rest : Bytes) :
    (r.bytes ++ rest).take 4 = recordMagic ∧
    ((r.bytes ++ rest).drop 4).take 2 = LittleEndian.encode 2 recordFormatVersion ∧
    ((r.bytes ++ rest).drop 6).take 2 =
      LittleEndian.encode 2 (if r.value.isNone then flagTombstone else 0) ∧
    ((r.bytes ++ rest).drop 8).take 8 = LittleEndian.encode 8 r.timestamp ∧
    ((r.bytes ++ rest).drop 16).take 4 = LittleEndian.encode 4 r.key.length ∧
    ((r.bytes ++ rest).drop 20).take 4 = LittleEndian.encode 4 (r.value.getD []).length ∧
    ((r.bytes ++ rest).drop reservedOffset).take 8 = List.replicate 8 0 ∧
    (r.bytes ++ rest).drop recordHeaderSize = r.key ++ r.value.getD [] ++ rest :=
  ⟨rfl, rfl, rfl, rfl, rfl, rfl, rfl, rfl⟩

/-- **Round trip**: a record is read back from its bytes, whatever follows them. -/
theorem decodeAt_bytes {r : VersionRecord} (h : r.Valid) (pageId : PageId) (rest : Bytes) :
    decodeAt pageId (r.bytes ++ rest) = .ok (some (r, r.size)) := by
  obtain ⟨hmagic, hversion, hflags, hts, hklen, hvlen, hzero, hbody⟩ := drop_take_bytes r rest
  have hfits : recordHeaderSize + r.key.length + (r.value.getD []).length ≤ 8128 := h.fits
  have hlen : (r.bytes ++ rest).length = r.size + rest.length := by simp
  have hsize : r.size = recordHeaderSize + r.key.length + (r.value.getD []).length := rfl
  have hhead : recordHeaderSize = 32 := rfl
  have hversion' : readAt (r.bytes ++ rest) 4 2 = recordFormatVersion := by
    rw [readAt, hversion]
    rfl
  have hflags' : readAt (r.bytes ++ rest) 6 2 = if r.value.isNone then flagTombstone else 0 := by
    rw [readAt, hflags]
    refine decode_encode_of_lt ?_
    split <;> decide
  have hts' : readAt (r.bytes ++ rest) 8 8 = r.timestamp := by
    rw [readAt, hts]
    exact decode_encode_of_lt h.timestamp
  have hklen' : readAt (r.bytes ++ rest) 16 4 = r.key.length := by
    rw [readAt, hklen]
    exact decode_encode_of_lt (by omega)
  have hvlen' : readAt (r.bytes ++ rest) 20 4 = (r.value.getD []).length := by
    rw [readAt, hvlen]
    exact decode_encode_of_lt (by omega)
  have hbody' : (r.bytes ++ rest).drop (recordHeaderSize + r.key.length) = r.value.getD
    [] ++ rest := by
    rw [← List.drop_drop, hbody, List.append_assoc, List.drop_left]
  have hpos := h.positive
  unfold decodeAt
  rw [if_neg (by rw [hmagic]; simp; omega), if_neg (by omega)]
  simp only [hversion', hflags', hts', hklen', hvlen', hzero, hbody, hbody', ne_eq,
    not_true_eq_false,
    if_false]
  have hreserved : ((List.replicate 8 (0 : UInt8)).any (· != 0)) = false := by decide
  have hzero' : r.timestamp ≠ 0 := Nat.ne_of_gt hpos
  have hroom : ¬(r.bytes ++ rest).length <
      recordHeaderSize + r.key.length + (r.value.getD []).length := by omega
  have hkey : List.take r.key.length (r.key ++ r.value.getD [] ++ rest) = r.key := by
    rw [List.append_assoc, List.take_left]
  have hvalue : List.take (r.value.getD []).length (r.value.getD [] ++ rest) = r.value.getD [] :=
    List.take_left
  rw [hreserved, if_neg hroom, hkey, hvalue]
  obtain ⟨timestamp, key, value⟩ := r
  cases value with
  | none => simp_all [flagTombstone, size]
  | some value => simp_all [size]

/-- No record starts where the first byte is zero or missing. -/
theorem decodeAt_gap (pageId : PageId) {bytes : Bytes} (h : bytes.head?.getD 0 = 0) :
    decodeAt pageId bytes = .ok none := by
  unfold decodeAt
  rw [if_pos]
  rw [or_iff_not_imp_left]
  intro hlen hmagic
  cases bytes with
  | nil => simp at hlen
  | cons byte bytes =>
    rw [List.take_succ_cons, recordMagic, List.cons.injEq] at hmagic
    rw [List.head?_cons, Option.getD_some] at h
    rw [h] at hmagic
    exact absurd hmagic.1 (by decide)

end VersionRecord

/-! ## packed pages -/

/-- A page with a place for each of these records, of which some are written. -/
inductive Renders : List (VersionRecord × Bool) → Bytes → Prop where
  /-- Nothing is written from here on. -/
  | blank {slots : List (VersionRecord × Bool)} (n : Nat) : (∀ slot ∈ slots, slot.2 = false) →
      Renders slots (List.replicate n 0)
  | written {r : VersionRecord} {slots : List (VersionRecord × Bool)} {bytes : Bytes} :
      Renders slots bytes → Renders ((r, true) :: slots) (r.bytes ++ bytes)
  | gap {r : VersionRecord} {slots : List (VersionRecord × Bool)} {bytes : Bytes} :
      Renders slots bytes → Renders ((r, false) :: slots) (List.replicate r.size 0 ++ bytes)

/-- The records up to the first gap. -/
def upToGap (slots : List (VersionRecord × Bool)) : List VersionRecord :=
  (slots.takeWhile fun slot => slot.2).map Prod.fst

/-- Nothing behind a gap is read. -/
theorem mem_of_mem_upToGap {before after : List (VersionRecord × Bool)} {r r' : VersionRecord}
    (h : r ∈ upToGap (before ++ (r', false) :: after)) : r ∈ before.map Prod.fst := by
  obtain ⟨slot, hslot, rfl⟩ := List.mem_map.mp h
  rw [List.takeWhile_append] at hslot
  split at hslot
  · rw [List.takeWhile_cons_of_neg (by simp), List.append_nil] at hslot
    exact List.mem_map_of_mem hslot
  · exact List.mem_map_of_mem ((List.takeWhile_sublist _).subset hslot)

/-- Everything before the first gap is read. -/
theorem mem_upToGap_append {before after : List (VersionRecord × Bool)} {r : VersionRecord}
    (hbefore : ∀ slot ∈ before, slot.2 = true) (h : r ∈ before.map Prod.fst) :
    r ∈ upToGap (before ++ after) := by
  rw [upToGap, List.takeWhile_append_of_pos hbefore, List.map_append]
  exact List.mem_append_left _ h

theorem VersionRecord.size_pos (r : VersionRecord) : 0 < r.size := by
  unfold size recordHeaderSize
  omega

namespace Renders

open VersionRecord

variable {slots : List (VersionRecord × Bool)} {bytes : Bytes}

/-- A page begins with its first record, or with nothing that looks like one. -/
theorem decodeLoop_eq (h : Renders slots bytes) (hvalid : ∀ slot ∈ slots, slot.1.Valid)
    (pageId : PageId) {fuel : Nat} (hfuel : bytes.length < fuel) :
    decodeLoop pageId fuel bytes = .ok (upToGap slots) := by
  induction h generalizing fuel with
  | @blank slots n hall =>
    cases fuel with
    | zero => cases hfuel
    | succ fuel =>
      have hhead : (List.replicate n (0 : UInt8)).head?.getD 0 = 0 := by
        cases n <;> rfl
      rw [decodeLoop, decodeAt_gap pageId hhead]
      cases slots with
      | nil => rfl
      | cons slot slots => simp [upToGap, hall slot List.mem_cons_self]
  | @written r slots bytes _ ih =>
    cases fuel with
    | zero => cases hfuel
    | succ fuel =>
      rw [List.length_append, length_bytes] at hfuel
      have hpos := r.size_pos
      have hr : r.Valid := hvalid (r, true) List.mem_cons_self
      have hrest : (r.bytes ++ bytes).drop r.size = bytes := List.drop_left' (length_bytes r)
      rw [decodeLoop, decodeAt_bytes hr]
      simp only [hrest]
      rw [ih (fun slot hs => hvalid slot (List.mem_cons_of_mem _ hs)) (by omega)]
      simp [upToGap, Except.map]
  | @gap r slots bytes _ _ =>
    cases fuel with
    | zero => cases hfuel
    | succ fuel =>
      have hhead : (List.replicate r.size (0 : UInt8) ++ bytes).head?.getD 0 = 0 := by
        obtain ⟨n, hn⟩ := Nat.exists_eq_succ_of_ne_zero (Nat.ne_of_gt r.size_pos)
        rw [hn, List.replicate_succ]
        rfl
      rw [decodeLoop, decodeAt_gap pageId hhead]
      simp [upToGap]

/-- **A packed page** decodes to the records before its first gap. -/
theorem decodePage_eq (h : Renders slots bytes) (hvalid : ∀ slot ∈ slots, slot.1.Valid)
    (pageId : PageId) : decodePage pageId bytes = .ok (upToGap slots) :=
  h.decodeLoop_eq hvalid pageId (Nat.lt_succ_self _)

/-- A place behind the last one is given away. -/
theorem reserve (h : Renders slots bytes) (r : VersionRecord) :
    Renders (slots ++ [(r, false)]) bytes := by
  induction h with
  | blank n hall =>
    refine .blank n fun slot hs => ?_
    rcases List.mem_append.mp hs with hs | hs
    · exact hall slot hs
    · rw [List.mem_singleton.mp hs]
  | written _ ih => exact .written ih
  | gap _ ih => exact .gap ih

/-- Where the places before some point end. -/
def extent (slots : List (VersionRecord × Bool)) : Nat := (slots.map fun slot => slot.1.size).sum

theorem extent_cons (slot : VersionRecord × Bool) (slots : List (VersionRecord × Bool)) :
    extent (slot :: slots) = slot.1.size + extent slots := by
  simp [extent]

/-- Placing bytes among zeros. -/
theorem splice_replicate (n offset : Nat) (b : Bytes) :
    splice (List.replicate n 0) offset b =
      List.replicate offset 0 ++ (b ++ List.replicate (n - (offset + b.length)) 0) := by
  have hleft : min offset (n + (offset + b.length - n)) = offset := by omega
  have hright : n + (offset + b.length - n) - (offset + b.length) = n - (offset + b.length) := by
    omega
  simp only [splice, List.length_replicate, List.replicate_append_replicate, List.take_replicate,
    List.drop_replicate, List.append_assoc, hleft, hright]

/-- Placing nothing only fills the page up to there. -/
theorem splice_empty (base : Bytes) (offset : Nat) :
    splice base offset [] = base ++ List.replicate (offset - base.length) 0 := by
  simp [splice]

/-- A record arrives at its place. -/
theorem write {before after : List (VersionRecord × Bool)} {r : VersionRecord}
    (h : Renders (before ++ (r, false) :: after) bytes) :
    Renders (before ++ (r, true) :: after) (splice bytes (extent before) r.bytes) := by
  induction before generalizing bytes with
  | nil =>
    rw [extent, List.map_nil, List.sum_nil, splice_zero, length_bytes]
    cases h with
    | blank n hall =>
      rw [List.drop_replicate]
      exact .written (.blank _ fun slot hs => hall slot (List.mem_cons_of_mem _ hs))
    | gap h =>
      rw [List.drop_left' List.length_replicate]
      exact .written h
  | cons slot before ih =>
    rw [List.cons_append] at h ⊢
    rw [extent_cons]
    cases h with
    | blank n hall =>
      have hslot := hall slot List.mem_cons_self
      obtain ⟨r', written⟩ := slot
      cases hslot
      have hrest := ih (.blank (n - r'.size) fun slot hs => hall slot (List.mem_cons_of_mem _ hs))
      rw [splice_replicate] at hrest ⊢
      rw [List.replicate_add, List.append_assoc]
      have hn : n - (r'.size + extent before + r.bytes.length) =
          n - r'.size - (extent before + r.bytes.length) := by omega
      rw [hn]
      exact .gap hrest
    | @written r' _ rest h =>
      have := splice_append_add r'.bytes rest (extent before) r.bytes
      rw [length_bytes] at this
      rw [this]
      exact .written (ih h)
    | @gap r' _ rest h =>
      have := splice_append_add (List.replicate r'.size 0) rest (extent before) r.bytes
      rw [List.length_replicate] at this
      rw [this]
      exact .gap (ih h)

/-- Zeros at the end make no difference. -/
theorem pad (h : Renders slots bytes) (n : Nat) : Renders slots (bytes ++ List.replicate n 0) := by
  induction h with
  | blank m hall =>
    rw [List.replicate_append_replicate]
    exact .blank _ hall
  | written _ ih =>
    rw [List.append_assoc]
    exact .written ih
  | gap _ ih =>
    rw [List.append_assoc]
    exact .gap ih

/-- A page without gaps. -/
theorem full (records : List VersionRecord) (n : Nat) :
    Renders (records.map fun record => (record, true))
      (records.flatMap VersionRecord.bytes ++ List.replicate n 0) := by
  induction records with
  | nil => exact .blank n (by simp)
  | cons record records ih =>
    rw [List.map_cons, List.flatMap_cons, List.append_assoc]
    exact .written ih

end Renders

/-! ## the page codec -/

namespace VersionRecord

/-- The loop of `decode_page` with its cursor, for some turns; `none` while it has not
come to an end. -/
def decodeFrom (pageId : PageId) (page : Bytes) :
    Nat → Nat → List VersionRecord → Option (Except TransactionError (List VersionRecord))
  | 0, _, _ => none
  | turns + 1, cursor, records =>
    match if page.length < cursor then .ok none else decodeAt pageId (page.drop cursor) with
    | .error error => some (.error error)
    | .ok none => some (.ok records)
    | .ok (some (record, length)) =>
      decodeFrom pageId page turns (cursor + length) (records ++ [record])

/-- A record that was read stands at the front of the bytes. -/
theorem bytes_of_decodeAt {pageId : PageId} {bytes : Bytes} {record : VersionRecord} {length : Nat}
    (h : decodeAt pageId bytes = .ok (some (record, length))) :
    length = record.size ∧ ∃ rest, bytes = record.bytes ++ rest := by
  unfold decodeAt at h
  split at h
  · cases h
  next hmagic =>
  rw [not_or, not_not] at hmagic
  simp only [ite_error_eq_ok, not_not] at h
  obtain ⟨hheader, hversion, hflags, hreserved, -, hlength, htombstone, h⟩ := h
  obtain ⟨hrecord, rfl⟩ := Prod.mk.inj (Option.some.inj (Except.ok.inj h))
  have h32 : 32 ≤ bytes.length := Nat.le_of_not_lt hheader
  have hbody : 32 + readAt bytes 16 4 + readAt bytes 20 4 ≤ bytes.length := Nat.le_of_not_lt hlength
  have hlen : ∀ n m, n + m ≤ bytes.length → ((bytes.drop n).take m).length = m := by
    intro n m hle
    rw [List.length_take, List.length_drop]
    omega
  have hts : record.timestamp = readAt bytes 8 8 := by rw [← hrecord]
  have hkey : record.key = (bytes.drop 32).take (readAt bytes 16 4) := by
    rw [← hrecord]
    rfl
  -- A tombstone has no bytes behind its key, so the value read is the same either way.
  have hvalue : record.value.getD [] =
      (bytes.drop (32 + readAt bytes 16 4)).take (readAt bytes 20 4) := by
    rw [← hrecord]
    by_cases hodd : readAt bytes 6 2 % 2 = 1
    · have hzero : readAt bytes 20 4 = 0 := by
        by_contra hne
        exact htombstone ⟨hodd, hne⟩
      simp [hodd, hzero]
    · simp [hodd, recordHeaderSize]
  have hflag : (if record.value.isNone = true then flagTombstone else 0) = readAt bytes 6 2 := by
    rw [← hrecord, flagTombstone]
    by_cases hodd : readAt bytes 6 2 % 2 = 1
    · simp [hodd]
      omega
    · simp [hodd]
      omega
  have hkeyLength := hlen 32 (readAt bytes 16 4) (by omega)
  have hvalueLength := hlen (32 + readAt bytes 16 4) (readAt bytes 20 4) (by omega)
  have hzeros : (bytes.drop 24).take 8 = List.replicate 8 0 := by
    refine take_eq_zeros (by omega) fun b hb => ?_
    by_contra hne
    exact hreserved (List.any_eq_true.mpr ⟨b, hb, by simpa using hne⟩)
  refine ⟨?_, bytes.drop (32 + readAt bytes 16 4 + readAt bytes 20 4), ?_⟩
  · simp only [size, recordHeaderSize, hkey, hvalue, hkeyLength, hvalueLength]
  · calc bytes
        = recordMagic ++ bytes.drop 4 := by rw [← hmagic.2, List.take_append_drop]
      _ = recordMagic ++ (LittleEndian.encode 2 recordFormatVersion ++
            (LittleEndian.encode 2 (readAt bytes 6 2) ++
              (LittleEndian.encode 8 (readAt bytes 8 8) ++ bytes.drop 16))) := by
          rw [drop_eq_encode_append (show 4 + 2 ≤ _ by omega), hversion,
            drop_eq_encode_append (show 6 + 2 ≤ _ by omega),
            drop_eq_encode_append (show 8 + 8 ≤ _ by omega)]
      _ = _ := by
          rw [drop_eq_encode_append (show 16 + 4 ≤ _ by omega),
            drop_eq_encode_append (show 20 + 4 ≤ _ by omega), drop_eq_take_append bytes 24 8,
            hzeros, drop_eq_take_append bytes 32 (readAt bytes 16 4),
            drop_eq_take_append bytes (32 + readAt bytes 16 4) (readAt bytes 20 4)]
          simp only [VersionRecord.bytes, hts, hflag, hkey, hvalue, hkeyLength, hvalueLength,
            List.append_assoc]

theorem not_magic_of_decodeAt {pageId : PageId} {bytes : Bytes}
    (h : decodeAt pageId bytes = .ok none) : ¬recordMagic <+: bytes := by
  unfold decodeAt at h
  split at h
  · next hmagic =>
    rintro ⟨rest, rfl⟩
    rcases hmagic with hshort | hne
    · rw [List.length_append, show recordMagic.length = 4 from rfl] at hshort
      omega
    · exact hne rfl
  · simp only [ite_error_eq_ok] at h
    obtain ⟨-, -, -, -, -, -, -, h⟩ := h
    cases h

/-- A page that was read is its records, and then no record. -/
theorem decodeLoop_canonical {pageId : PageId} {fuel : Nat} {bytes : Bytes}
    {records : List VersionRecord} (hfuel : bytes.length < fuel)
    (h : decodeLoop pageId fuel bytes = .ok records) :
    ∃ rest, bytes = records.flatMap VersionRecord.bytes ++ rest ∧ ¬recordMagic <+: rest := by
  induction fuel generalizing bytes records with
  | zero => cases hfuel
  | succ fuel ih =>
    rw [decodeLoop] at h
    split at h
    · cases h
    · next hnone =>
      cases h
      exact ⟨bytes, rfl, not_magic_of_decodeAt hnone⟩
    · next record length hsome =>
      obtain ⟨rfl, rest, rfl⟩ := bytes_of_decodeAt hsome
      rw [map_eq_ok, List.drop_left' (length_bytes record)] at h
      obtain ⟨records', h, rfl⟩ := h
      have hpos := record.size_pos
      rw [List.length_append, length_bytes] at hfuel
      obtain ⟨rest', rfl, hrest⟩ := ih (by omega) h
      refine ⟨rest', ?_, hrest⟩
      rw [List.flatMap_cons, List.append_assoc]

/-- The loop with a cursor comes to an end, with what the other one returns. -/
theorem decodeFrom_eq (pageId : PageId) (page : Bytes) {turns cursor : Nat}
    (records : List VersionRecord) (hcursor : cursor ≤ page.length)
    (hturns : page.length - cursor < turns) :
    decodeFrom pageId page turns cursor records =
      some ((decodeLoop pageId turns (page.drop cursor)).map (records ++ ·)) := by
  induction turns generalizing cursor records with
  | zero => cases hturns
  | succ turns ih =>
    rw [decodeFrom, decodeLoop, if_neg (Nat.not_lt.mpr hcursor)]
    split
    · rfl
    · simp [Except.map]
    · next record length hd =>
      obtain ⟨rfl, rest, hrest⟩ := bytes_of_decodeAt hd
      have hpos := record.size_pos
      have hle : cursor + record.size ≤ page.length := by
        have hlen := congrArg List.length hrest
        rw [List.length_drop, List.length_append, length_bytes] at hlen
        omega
      rw [ih _ hle (by omega), List.drop_drop]
      cases decodeLoop pageId turns (page.drop (cursor + record.size)) <;> simp [Except.map]

theorem encode_eq_ok {r : VersionRecord} (h : r.size ≤ maxPagePayload) :
    r.encode = .ok r.bytes := by
  rw [encode, validateSize_ok.mpr h]
  rfl

theorem size_le_of_mem {records : List VersionRecord} {r : VersionRecord} (h : r ∈ records) :
    r.size ≤ (records.flatMap VersionRecord.bytes).length := by
  rw [List.length_flatMap]
  have hmem := List.mem_map_of_mem (f := fun r => r.bytes.length) h
  rw [length_bytes] at hmem
  exact List.single_le_sum (fun _ _ => Nat.zero_le _) _ hmem

/-- **The page codec is canonical**: records are read back from a page that holds them,
with any number of zeros behind; a page that is accepted starts with the encodings of
what is read, followed by no record; and the loop over any page ends. -/
theorem decodePage_canonical (pageId : PageId) :
    (∀ (records : List VersionRecord) (zeros : Nat),
      (∀ r ∈ records, 0 < r.timestamp ∧ r.timestamp < 2 ^ 64) →
      (records.flatMap VersionRecord.bytes).length ≤ maxPagePayload →
      records.mapM VersionRecord.encode = .ok (records.map VersionRecord.bytes) ∧
        decodePage pageId (records.flatMap VersionRecord.bytes ++ List.replicate zeros 0) =
          .ok records) ∧
    (∀ (page : Bytes) (records : List VersionRecord), page.length ≤ maxPagePayload →
      decodePage pageId page = .ok records →
      ∃ encoded rest, records.mapM VersionRecord.encode = .ok encoded ∧
        page = encoded.flatten ++ rest ∧ ¬recordMagic <+: rest) ∧
    (∀ page : Bytes, ∃ turns,
      decodeFrom pageId page turns 0 [] = some (decodePage pageId page)) := by
  have hencode : ∀ records : List VersionRecord,
      (records.flatMap VersionRecord.bytes).length ≤ maxPagePayload →
      records.mapM VersionRecord.encode = .ok (records.map VersionRecord.bytes) :=
    fun records hfits => mapM_eq_map fun r hr => encode_eq_ok ((size_le_of_mem hr).trans hfits)
  refine ⟨fun records zeros hts hfits => ⟨hencode records hfits, ?_⟩,
    fun page records hfits h => ?_,
    fun page => ⟨page.length + 1, ?_⟩⟩
  · have hvalid : ∀ slot ∈ records.map fun record => (record, true), slot.1.Valid := by
      intro slot hslot
      obtain ⟨r, hr, rfl⟩ := List.mem_map.mp hslot
      exact ⟨(hts r hr).1, (hts r hr).2, (size_le_of_mem hr).trans hfits⟩
    rw [(Renders.full records zeros).decodePage_eq hvalid pageId, upToGap,
      List.takeWhile_eq_self_iff.mpr (by simp)]
    simp [Function.comp_def]
  · obtain ⟨rest, rfl, hrest⟩ := decodeLoop_canonical (Nat.lt_succ_self _) h
    rw [List.length_append] at hfits
    refine ⟨records.map VersionRecord.bytes, rest, hencode records (by omega), ?_, hrest⟩
    rw [List.flatMap]
  · rw [decodeFrom_eq pageId page [] (Nat.zero_le _) (by omega), decodePage, List.drop_zero]
    cases decodeLoop pageId (page.length + 1) page <;> simp [Except.map]

/-- A value, an empty value and a tombstone of the same key, with three zeros behind. -/
theorem decodePage_canonical_three :
    decodePage 4 (([⟨1, [7], some [8]⟩, ⟨2, [7], some []⟩, ⟨3, [7], none⟩] :
      List VersionRecord).flatMap VersionRecord.bytes ++ List.replicate 3 0) =
        .ok [⟨1, [7], some [8]⟩, ⟨2, [7], some []⟩, ⟨3, [7], none⟩] ∧
    ∃ encoded rest, ([⟨1, [7], some [8]⟩] : List VersionRecord).mapM VersionRecord.encode =
        .ok encoded ∧
      (⟨1, [7], some [8]⟩ : VersionRecord).bytes ++ [1] = encoded.flatten ++ rest ∧
        ¬recordMagic <+: rest :=
  ⟨((decodePage_canonical 4).1 _ 3 (by decide) (by decide)).2,
    (decodePage_canonical 4).2.1 _ _ (by decide) (by decide +kernel)⟩

end VersionRecord

end QuantaDb.Mvcc
