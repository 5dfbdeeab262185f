import QuantaDb.Index.Node

/-!
# QuantaDb.Index.NodeCodec

The node format as a bijection, on the reads as `node.rs` makes them.

The source reads a node by index, with a cursor that moves over the payload.
`decodeIndexed` makes these reads with the check that a slice makes, and fails with
`Fault.outside` where an index would lie past the end.  It is `Node.decode`
(`decodeIndexed_eq`), so that never happens, and what is accepted is the encoding of
the node it gives (`Node.bytes_of_decode`).
-/

namespace QuantaDb.Index

open Fallible LittleEndian Ordered

/-- How a read ends that does not return: an index past the end, or an error. -/
inductive Fault where
  | outside
  | error (error : IndexError)
deriving DecidableEq, Repr

/-- `bytes[start..stop]`. -/
def slice (bytes : Bytes) (start stop : Nat) : Except Fault Bytes :=
  if start ≤ stop ∧ stop ≤ bytes.length then .ok ((bytes.drop start).take (stop - start))
  else .error .outside

/-- `read_u16`, `read_u32` and `read_u64`, which differ in the size of the field. -/
def readWord (bytes : Bytes) (offset size : Nat) : Except Fault Nat :=
  (slice bytes offset (offset + size)).map LittleEndian.decode

/-- `read_required_u32` and `read_required_u64`.  A payload is shorter than `2^63`
bytes, so the sums with a cursor do not overflow. -/
def readRequired (page : PageId) (size bits : Nat) (bytes : Bytes) (cursor : Nat) :
    Except Fault (Nat × Nat) :=
  if bytes.length < cursor + size then
    .error (.error (corrupt page s!"node ends inside a {bits}-bit field"))
  else (readWord bytes cursor size).map fun value => (value, cursor + size)

def readRequiredU32 (page : PageId) := readRequired page 4 32
def readRequiredU64 (page : PageId) := readRequired page 8 64

/-- `read_key`. -/
def readKey (page : PageId) (bytes : Bytes) (cursor : Nat) : Except Fault (Bytes × Nat) := do
  let (keyLength, cursor) ← readRequiredU32 page bytes cursor
  let stop := cursor + keyLength
  if bytes.length < stop then .error (.error (corrupt page "key extends past node boundary"))
  else (slice bytes cursor stop).map fun key => (key, stop)

/-- One turn of the loop over the entries, or over the separators. -/
def readFieldAt (page : PageId) (bytes : Bytes) (cursor : Nat) :
    Except Fault ((Bytes × PageId) × Nat) := do
  let (key, cursor) ← readKey page bytes cursor
  let (value, cursor) ← readRequiredU64 page bytes cursor
  return ((key, UInt64.ofNat value), cursor)

/-- The loop over the entries, or over the separators, which need a child. -/
def readFieldsAt (page : PageId) (children : Bool) (bytes : Bytes) :
    Nat → Nat → Except Fault (List (Bytes × PageId) × Nat)
  | 0, cursor => .ok ([], cursor)
  | count + 1, cursor => do
      let (field, cursor) ← readFieldAt page bytes cursor
      if children && field.2 == noPage then
        .error (.error (corrupt page "separator has no child"))
      else
        let (fields, cursor) ← readFieldsAt page children bytes count cursor
        return (field :: fields, cursor)

/-- `ensure_finished` and `ensure_strict_keys`. -/
def ensureFields (page : PageId) (bytes : Bytes) (fields : List (Bytes × PageId)) (cursor : Nat) :
    Except Fault Unit :=
  if cursor ≠ bytes.length then
    .error (.error (corrupt page s!"node contains {bytes.length - cursor} trailing bytes"))
  else if strict (fields.map Prod.fst) then .ok ()
  else .error (.error (corrupt page "node keys are not strictly increasing"))

/-- The reserved bytes of the header, read by index. -/
def reservedZeroAt (bytes : Bytes) : Except Fault Bool := do
  let seven ← slice bytes 7 8
  let fourteen ← slice bytes 14 16
  let twentyFour ← slice bytes 24 32
  return (seven ++ (fourteen ++ twentyFour)).all (· == 0)

/-- The entries or the separators of a node, checked. -/
def readBody (page : PageId) (children : Bool) (bytes : Bytes) (count : Nat) :
    Except Fault (List (Bytes × PageId)) := do
  let (fields, cursor) ← readFieldsAt page children bytes count headerSize
  ensureFields page bytes fields cursor
  return fields

/-- `Node::decode` behind the header. -/
def decodeBody (page : PageId) (bytes : Bytes) (kind : UInt8) (count level : Nat)
    (auxiliary : PageId) : Except Fault Node :=
  if kind = leafKind then
    if level ≠ 0 then .error (.error (corrupt page "leaf level must be zero"))
    else do
      let fields ← readBody page false bytes count
      return .leaf (fields.map fun field => ⟨field.1, field.2⟩)
        (if auxiliary = noPage then none else some auxiliary)
  else if kind = internalKind then
    if level = 0 then .error (.error (corrupt page "internal level must be positive"))
    else if auxiliary = noPage then
      .error (.error (corrupt page "internal node has no first child"))
    else do
      let fields ← readBody page true bytes count
      return .internal level auxiliary fields
  else .error (.error (corrupt page s!"unknown node kind {kind}"))

/-- `Node::decode`, read by index. -/
def decodeIndexed (page : PageId) (bytes : Bytes) : Except Fault Node :=
  if bytes.length < headerSize then
    .error (.error (corrupt page "node is shorter than its header"))
  else do
    let magic ← slice bytes 0 4
    if magic ≠ nodeMagic then .error (.error (corrupt page "invalid node magic"))
    else
      let version ← readWord bytes 4 2
      if version ≠ nodeFormatVersion then
        .error (.error (corrupt page s!"unsupported node format version {version}"))
      else
        let zero ← reservedZeroAt bytes
        if !zero then .error (.error (corrupt page "reserved header bytes are not zero"))
        else
          let kind ← readWord bytes 6 1
          let count ← readWord bytes 8 4
          let level ← readWord bytes 12 2
          let auxiliary ← readWord bytes 16 8
          decodeBody page bytes (UInt8.ofNat kind) count level (UInt64.ofNat auxiliary)

/-! ## no read leaves the payload -/

variable {bytes : Bytes}

theorem slice_ok {start stop : Nat} (h : start ≤ stop) (hstop : stop ≤ bytes.length) :
    slice bytes start stop = .ok ((bytes.drop start).take (stop - start)) := if_pos ⟨h, hstop⟩

theorem readWord_ok {offset size : Nat} (h : offset + size ≤ bytes.length) :
    readWord bytes offset size = .ok (readAt bytes offset size) := by
  rw [readWord, slice_ok (Nat.le_add_right _ _) h, Nat.add_sub_cancel_left]
  rfl

variable {cursor : Nat}

theorem readRequired_ok (page : PageId) (bits : Nat) {size : Nat}
    (h : cursor + size ≤ bytes.length) :
    readRequired page size bits bytes cursor = .ok (readAt bytes cursor size, cursor + size) := by
  rw [readRequired, if_neg (Nat.not_lt.mpr h), readWord_ok h]
  rfl

theorem readRequired_error (page : PageId) (bits : Nat) {size : Nat}
    (h : bytes.length < cursor + size) :
    readRequired page size bits bytes cursor =
      .error (.error (corrupt page s!"node ends inside a {bits}-bit field")) := if_pos h

/-- A read by index follows one from the front of what is left: it ends in the same
error, or at the index where the rest starts. -/
def Follows {α : Type} (bytes : Bytes) (x : Except Fault (α × Nat))
    (y : Except IndexError (α × Bytes)) : Prop :=
  (∃ e, y = .error e ∧ x = .error (.error e)) ∨
    ∃ a next, next ≤ bytes.length ∧ y = .ok (a, bytes.drop next) ∧ x = .ok (a, next)

theorem readAt_drop (bytes : Bytes) (cursor size : Nat) :
    readAt (bytes.drop cursor) 0 size = readAt bytes cursor size := rfl

theorem readFieldAt_follows (page : PageId) (h : cursor ≤ bytes.length) :
    Follows bytes (readFieldAt page bytes cursor) (Node.readField page (bytes.drop cursor)) := by
  unfold readFieldAt readKey readRequiredU32 readRequiredU64 Node.readField
  simp only [readAt_drop, List.drop_drop, List.length_drop]
  by_cases hfour : bytes.length < cursor + 4
  · refine .inl ⟨_, if_pos (by omega), ?_⟩
    rw [readRequired_error page 32 hfour]
    rfl
  rw [if_neg (by omega), readRequired_ok page 32 (by omega)]
  simp only [bind, Except.bind]
  by_cases hkey : bytes.length < cursor + 4 + readAt bytes cursor 4
  · exact .inl ⟨_, if_pos (by omega), by rw [if_pos hkey]⟩
  rw [if_neg hkey, if_neg (by omega), slice_ok (by omega) (by omega)]
  simp only [Except.map, Nat.add_sub_cancel_left]
  by_cases height : bytes.length < cursor + 4 + readAt bytes cursor 4 + 8
  · refine .inl ⟨_, if_pos (by omega), ?_⟩
    rw [readRequired_error page 64 height]
    rfl
  refine .inr ⟨_, cursor + 4 + readAt bytes cursor 4 + 8, by omega, if_neg (by omega), ?_⟩
  rw [readRequired_ok page 64 (by omega)]
  rfl

theorem readFieldsAt_follows (page : PageId) (children : Bool) (count : Nat)
    (h : cursor ≤ bytes.length) :
    Follows bytes (readFieldsAt page children bytes count cursor)
      (Node.readFields page children count (bytes.drop cursor)) := by
  induction count generalizing cursor with
  | zero => exact .inr ⟨[], cursor, h, rfl, rfl⟩
  | succ count ih =>
    rw [readFieldsAt, Node.readFields]
    obtain ⟨e, hy, hx⟩ | ⟨field, next, hnext, hy, hx⟩ := readFieldAt_follows page h
    · exact .inl ⟨e, by rw [hy]; rfl, by rw [hx]; rfl⟩
    rw [hx, hy]
    simp only [bind, Except.bind]
    by_cases hchild : (children && field.2 == noPage) = true
    · exact .inl ⟨_, if_pos hchild, if_pos hchild⟩
    rw [if_neg hchild, if_neg hchild]
    obtain ⟨e, hy, hx⟩ | ⟨fields, next', hnext', hy, hx⟩ := ih hnext
    · exact .inl ⟨e, by rw [hy], by rw [hx]⟩
    · exact .inr ⟨field :: fields, next', hnext', by rw [hy]; rfl, by rw [hx]; rfl⟩

theorem ensureFields_eq (page : PageId) (fields : List (Bytes × PageId))
    (h : cursor ≤ bytes.length) :
    ensureFields page bytes fields cursor =
      (Node.checkFields page fields (bytes.drop cursor)).mapError .error := by
  have hend : bytes.drop cursor = [] ↔ cursor = bytes.length := by
    rw [List.drop_eq_nil_iff]
    omega
  unfold ensureFields Node.checkFields
  simp only [ne_eq, hend, List.length_drop]
  split
  · rfl
  · split <;> rfl

/-- The part of `decode` that the two kinds of node share. -/
theorem readBody_bind {page : PageId} {children : Bool} (count : Nat)
    (hlen : headerSize ≤ bytes.length) (build : List (Bytes × PageId) → Node) :
    (readBody page children bytes count >>= fun fields => pure (build fields)) =
      Except.mapError Fault.error
        (Node.readFields page children count (bytes.drop headerSize) >>= fun read =>
          Node.checkFields page read.1 read.2 >>= fun _ => pure (build read.1)) := by
  obtain ⟨e, hy, hx⟩ | ⟨fields, next, hnext, hy, hx⟩ :=
    readFieldsAt_follows page children count hlen
  · rw [readBody, hx, hy]
    rfl
  · rw [readBody, hx, hy]
    simp only [bind, Except.bind]
    rw [ensureFields_eq page fields hnext]
    cases Node.checkFields page fields (bytes.drop next) <;> rfl

theorem decodeBody_eq (page : PageId) (hlen : headerSize ≤ bytes.length) (kind : UInt8)
    (count level : Nat) (auxiliary : PageId) :
    decodeBody page bytes kind count level auxiliary =
      Except.mapError Fault.error
        (if kind = leafKind then Node.decodeLeaf page level count auxiliary (bytes.drop headerSize)
        else if kind = internalKind then
          Node.decodeInternal page level count auxiliary (bytes.drop headerSize)
        else .error (corrupt page s!"unknown node kind {kind}")) := by
  unfold decodeBody Node.decodeLeaf Node.decodeInternal
  split
  · split
    · rfl
    · exact readBody_bind count hlen fun fields =>
        .leaf (fields.map fun field => ⟨field.1, field.2⟩)
          (if auxiliary = noPage then none else some auxiliary)
  · split
    · split
      · rfl
      · split
        · rfl
        · exact readBody_bind count hlen (.internal level auxiliary)
    · rfl

theorem reservedZeroAt_eq (hlen : headerSize ≤ bytes.length) :
    reservedZeroAt bytes = .ok (Node.reservedZero bytes) := by
  rw [headerSize] at hlen
  have hseven : (bytes.drop 7).take 1 = [bytes.get ⟨7, by omega⟩] := by
    rw [List.drop_eq_getElem_cons (by omega)]
    rfl
  unfold reservedZeroAt Node.reservedZero
  rw [slice_ok (by omega) (by omega), slice_ok (by omega) (by omega),
    slice_ok (by omega) (by omega)]
  simp only [bind, Except.bind, pure, Except.pure, hseven, List.all_append, List.all_cons,
    List.all_nil, Bool.and_true, List.get_eq_getElem, Bool.and_assoc]
  rw [List.getElem?_eq_getElem (by omega)]
  rfl

/-- **No read leaves the payload**: the reads by index give what `decode` gives. -/
theorem decodeIndexed_eq (page : PageId) (bytes : Bytes) :
    decodeIndexed page bytes = (Node.decode page bytes).mapError .error := by
  unfold decodeIndexed Node.decode
  by_cases hlen : bytes.length < headerSize
  · rw [if_pos hlen, if_pos hlen]
    rfl
  have hlen' : headerSize ≤ bytes.length := Nat.le_of_not_lt hlen
  have h32 : 32 ≤ bytes.length := hlen'
  rw [if_neg hlen, if_neg hlen, slice_ok (by omega) (by omega), readWord_ok (by omega),
    reservedZeroAt_eq hlen', readWord_ok (by omega), readWord_ok (by omega),
    readWord_ok (by omega), readWord_ok (by omega)]
  simp only [bind, Except.bind, List.drop_zero, Nat.sub_zero]
  split
  · rfl
  · split
    · rfl
    · split
      · rfl
      · exact decodeBody_eq page hlen' _ _ _ _

/-- **The node codec is a bijection** between the sound nodes that fit into a page and
the payloads that are accepted, and reading never leaves the payload. -/
theorem decodeIndexed_bijective :
    (∀ (node : Node) (page : PageId), node.Sound → node.encodedLength ≤ maxPagePayload →
      ∃ payload, node.encode = .ok payload ∧ decodeIndexed page payload = .ok node) ∧
    (∀ (page : PageId) (bytes : Bytes) (node : Node), bytes.length ≤ maxPagePayload →
      decodeIndexed page bytes = .ok node → node.encode = .ok bytes) ∧
    (∀ (page : PageId) (bytes : Bytes), decodeIndexed page bytes ≠ .error .outside) := by
  refine ⟨fun node page hsound hfits => ?_, fun page bytes node hfits h => ?_, fun page bytes => ?_⟩
  · have hencode : node.encode = .ok node.bytes := if_neg (Nat.not_lt.mpr hfits)
    refine ⟨node.bytes, hencode, ?_⟩
    rw [decodeIndexed_eq, Node.decode_encode hsound hencode page]
    rfl
  · rw [decodeIndexed_eq] at h
    have hdecode : Node.decode page bytes = .ok node := by
      cases hd : Node.decode page bytes with
      | error e => rw [hd] at h; cases h
      | ok node' => rw [hd] at h; cases h; rfl
    have hbytes := Node.bytes_of_decode hdecode
    rw [← Node.encodedLength_of_decode hdecode] at hfits
    rw [← hbytes]
    exact if_neg (Nat.not_lt.mpr hfits)
  · rw [decodeIndexed_eq]
    cases Node.decode page bytes <;> simp [Except.mapError]

/-- A leaf of two entries with a successor, and the payload of a root with two children. -/
theorem decodeIndexed_bijective_pair :
    (∃ payload, (Node.leaf [⟨[1], 7⟩, ⟨[1, 0], 7⟩] (some 5)).encode = .ok payload ∧
      decodeIndexed 0 payload = .ok (.leaf [⟨[1], 7⟩, ⟨[1, 0], 7⟩] (some 5))) ∧
    (Node.internal 1 3 [([9], 4)]).encode = .ok (Node.internal 1 3 [([9], 4)]).bytes :=
  ⟨decodeIndexed_bijective.1 _ 0 ⟨(strict_map_iff _ _).mp (by decide), by decide⟩ (by decide),
    decodeIndexed_bijective.2.1 0 _ _ (by decide) (by decide +kernel)⟩

end QuantaDb.Index
