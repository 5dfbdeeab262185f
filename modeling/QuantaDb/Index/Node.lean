import QuantaDb.Lib.Fallible
import QuantaDb.Lib.LittleEndian
import QuantaDb.Lib.Ordered
import QuantaDb.Storage.Store

/-!
# QuantaDb.Index.Node

Nodes of the index as bytes (`node.rs`).

A node is a header and one field for each entry or separator.  `decode` reads back
what `encode` wrote, for nodes with increasing keys (`decode_encode`).
-/

namespace QuantaDb.Index

open Fallible LittleEndian Ordered

/-- `IndexError`. -/
inductive IndexError where
  | storage (error : StorageError)
  | keysNotStrictlyIncreasing
  | keyTooLarge (actual maximum : Nat)
  | entryCountOverflow
  | corruptNode (page : PageId) (reason : String)
deriving DecidableEq, Repr

/-- `IndexEntry`. -/
structure IndexEntry where
  key : Bytes
  value : PageId
deriving DecidableEq, Repr

/-- `Node`. -/
inductive Node where
  | leaf (entries : List IndexEntry) (next : Option PageId)
  | internal (level : Nat) (firstChild : PageId) (separators : List (Bytes × PageId))
deriving DecidableEq, Repr

/-- `b"QNIX"`. -/
def nodeMagic : Bytes := [81, 78, 73, 88]

def nodeFormatVersion : Nat := 1
def headerSize : Nat := 32
def leafKind : UInt8 := 1
def internalKind : UInt8 := 2
def noPage : PageId := 0xffffffffffffffff

/-- `leaf_entry_size` and `internal_entry_size`, which are the same. -/
def entrySize (key : Bytes) : Nat := key.length + 12

def corrupt (page : PageId) (reason : String) : IndexError := .corruptNode page reason

namespace Node

/-- `Node::level`. -/
def level : Node → Nat
  | leaf _ _ => 0
  | internal level _ _ => level

/-- The keys with the page that is stored beside each. -/
def fields : Node → List (Bytes × PageId)
  | leaf entries _ => entries.map fun entry => (entry.key, entry.value)
  | internal _ _ separators => separators

def kind : Node → UInt8
  | leaf _ _ => leafKind
  | internal _ _ _ => internalKind

/-- The page in the header. -/
def auxiliary : Node → PageId
  | leaf _ next => next.getD noPage
  | internal _ firstChild _ => firstChild

def encodedLength (node : Node) : Nat :=
  headerSize + (node.fields.map fun field => entrySize field.1).sum

/-- One key and its page. -/
def fieldBytes (field : Bytes × PageId) : Bytes :=
  LittleEndian.encode 4 field.1.length ++ (field.1 ++ LittleEndian.encode 8 field.2.toNat)

def bytes (node : Node) : Bytes :=
  nodeMagic ++ (LittleEndian.encode 2 nodeFormatVersion ++ ([node.kind, 0] ++
    (LittleEndian.encode 4 node.fields.length ++ (LittleEndian.encode 2 node.level ++ ([0, 0] ++
      (LittleEndian.encode 8 node.auxiliary.toNat ++ (List.replicate 8 0 ++
        node.fields.flatMap fieldBytes)))))))

/-- `Node::encode`. -/
def encode (node : Node) : Except IndexError Bytes :=
  if maxPagePayload < node.encodedLength then
    .error (.keyTooLarge node.encodedLength maxPagePayload)
  else .ok node.bytes

/-- `read_key` and `read_required_u64`, on the bytes from the cursor on. -/
def readField (page : PageId) (bytes : Bytes) : Except IndexError ((Bytes × PageId) × Bytes) :=
  if bytes.length < 4 then .error (corrupt page "node ends inside a 32-bit field")
  else
    let length := readAt bytes 0 4
    let rest := bytes.drop 4
    if rest.length < length then .error (corrupt page "key extends past node boundary")
    else
      let after := rest.drop length
      if after.length < 8 then .error (corrupt page "node ends inside a 64-bit field")
      else .ok ((rest.take length, UInt64.ofNat (readAt after 0 8)), after.drop 8)

/-- The fields of a node; those of an internal node have a child. -/
def readFields (page : PageId) (children : Bool) :
    Nat → Bytes → Except IndexError (List (Bytes × PageId) × Bytes)
  | 0, bytes => .ok ([], bytes)
  | count + 1, bytes => do
      let (field, rest) ← readField page bytes
      if children && field.2 == noPage then .error (corrupt page "separator has no child")
      else
        let (fields, rest) ← readFields page children count rest
        return (field :: fields, rest)

/-- `ensure_finished` and `ensure_strict_keys`. -/
def checkFields (page : PageId) (fields : List (Bytes × PageId)) (rest : Bytes) :
    Except IndexError Unit :=
  if rest ≠ [] then .error (corrupt page s!"node contains {rest.length} trailing bytes")
  else if strict (fields.map Prod.fst) then .ok ()
  else .error (corrupt page "node keys are not strictly increasing")

/-- The reserved bytes of the header are zero. -/
def reservedZero (bytes : Bytes) : Bool :=
  bytes[7]? == some 0 && ((bytes.drop 14).take 2).all (· == 0) &&
    ((bytes.drop 24).take 8).all (· == 0)

/-- `Node::decode` of a leaf. -/
def decodeLeaf (page : PageId) (level count : Nat) (auxiliary : PageId) (body : Bytes) :
    Except IndexError Node :=
  if level ≠ 0 then .error (corrupt page "leaf level must be zero")
  else do
    let (fields, rest) ← readFields page false count body
    checkFields page fields rest
    return leaf (fields.map fun field => ⟨field.1, field.2⟩)
      (if auxiliary = noPage then none else some auxiliary)

/-- `Node::decode` of an internal node. -/
def decodeInternal (page : PageId) (level count : Nat) (auxiliary : PageId) (body : Bytes) :
    Except IndexError Node :=
  if level = 0 then .error (corrupt page "internal level must be positive")
  else if auxiliary = noPage then .error (corrupt page "internal node has no first child")
  else do
    let (fields, rest) ← readFields page true count body
    checkFields page fields rest
    return internal level auxiliary fields

/-- `Node::decode`. -/
def decode (page : PageId) (bytes : Bytes) : Except IndexError Node :=
  if bytes.length < headerSize then .error (corrupt page "node is shorter than its header")
  else if bytes.take 4 ≠ nodeMagic then .error (corrupt page "invalid node magic")
  else
    let version := readAt bytes 4 2
    if version ≠ nodeFormatVersion then
      .error (corrupt page s!"unsupported node format version {version}")
    else if !reservedZero bytes then .error (corrupt page "reserved header bytes are not zero")
    else
      let kind := UInt8.ofNat (readAt bytes 6 1)
      let count := readAt bytes 8 4
      let level := readAt bytes 12 2
      let auxiliary := UInt64.ofNat (readAt bytes 16 8)
      let body := bytes.drop headerSize
      if kind = leafKind then decodeLeaf page level count auxiliary body
      else if kind = internalKind then decodeInternal page level count auxiliary body
      else .error (corrupt page s!"unknown node kind {kind}")

/-! ## the round trip -/

/-- What decoding asks of a node beyond its size. -/
def Sound : Node → Prop
  | leaf entries next => Increasing IndexEntry.key entries ∧ next ≠ some noPage
  | internal level firstChild separators =>
    0 < level ∧ level < 2 ^ 16 ∧ firstChild ≠ noPage ∧
      (∀ separator ∈ separators, separator.2 ≠ noPage) ∧ Increasing Prod.fst separators

theorem length_fieldBytes (field : Bytes × PageId) :
    (fieldBytes field).length = entrySize field.1 := by
  simp [fieldBytes, entrySize]
  omega

@[simp] theorem length_bytes (node : Node) : node.bytes.length = node.encodedLength := by
  simp [bytes, encodedLength, length_fieldBytes, nodeMagic, headerSize]
  omega

theorem readAt_encode {n v : Nat} (h : v < 256 ^ n) (rest : Bytes) :
    readAt (LittleEndian.encode n v ++ rest) 0 n = v := by
  rw [readAt, List.drop_zero, List.take_left' (length_encode n v), decode_encode_of_lt h]

theorem readField_fieldBytes (page : PageId) {field : Bytes × PageId}
    (hlen : field.1.length < 2 ^ 32) (rest : Bytes) :
    readField page (fieldBytes field ++ rest) = .ok (field, rest) := by
  have hlength : readAt (fieldBytes field ++ rest) 0 4 = field.1.length := by
    rw [fieldBytes, List.append_assoc]
    exact readAt_encode hlen _
  have hdrop : (fieldBytes field ++ rest).drop 4 =
      field.1 ++ (LittleEndian.encode 8 field.2.toNat ++ rest) := by
    rw [fieldBytes, List.append_assoc, List.drop_left' (length_encode _ _), List.append_assoc]
  have hvalue : readAt (LittleEndian.encode 8 field.2.toNat ++ rest) 0 8 = field.2.toNat :=
    readAt_encode field.2.toNat_lt _
  unfold readField
  simp only [hlength, hdrop]
  rw [if_neg (by simp [length_fieldBytes, entrySize]; omega), if_neg (by simp), List.drop_left,
    if_neg (by simp), hvalue, List.take_left, List.drop_left' (length_encode _ _),
    UInt64.ofNat_toNat]

variable {fields : List (Bytes × PageId)}

theorem readFields_flatMap (page : PageId) (children : Bool)
    (hlen : ∀ field ∈ fields, field.1.length < 2 ^ 32)
    (hchild : children = true → ∀ field ∈ fields, field.2 ≠ noPage) (rest : Bytes) :
    readFields page children fields.length (fields.flatMap fieldBytes ++ rest) =
      .ok (fields, rest) := by
  induction fields with
  | nil => rfl
  | cons field fields ih =>
    rw [List.forall_mem_cons] at hlen
    have hne : (children && field.2 == noPage) = false := by
      cases children with
      | false => rfl
      | true => simpa using hchild rfl field List.mem_cons_self
    have hrest := ih hlen.2 fun h field hfield => hchild h field (List.mem_cons_of_mem _ hfield)
    rw [List.length_cons, readFields, List.flatMap_cons, List.append_assoc,
      readField_fieldBytes page hlen.1]
    simp only [bind, Except.bind, hne, Bool.false_eq_true, if_false, hrest]
    rfl

theorem checkFields_ok (page : PageId) (h : Increasing Prod.fst fields) :
    checkFields page fields [] = .ok () := by
  rw [checkFields, if_neg (by simp), (strict_map_iff _ _).mpr h, if_pos rfl]

/-- The header fields of a node, whatever its body. -/
theorem header_fields (node : Node) :
    node.bytes.take 4 = nodeMagic ∧
    (node.bytes.drop 4).take 2 = LittleEndian.encode 2 nodeFormatVersion ∧
    (node.bytes.drop 6).take 1 = [node.kind] ∧
    node.bytes[7]? = some 0 ∧
    (node.bytes.drop 8).take 4 = LittleEndian.encode 4 node.fields.length ∧
    (node.bytes.drop 12).take 2 = LittleEndian.encode 2 node.level ∧
    (node.bytes.drop 14).take 2 = [0, 0] ∧
    (node.bytes.drop 16).take 8 = LittleEndian.encode 8 node.auxiliary.toNat ∧
    (node.bytes.drop 24).take 8 = List.replicate 8 0 ∧
    node.bytes.drop headerSize = node.fields.flatMap fieldBytes :=
  ⟨rfl, rfl, rfl, rfl, rfl, rfl, rfl, rfl, rfl, rfl⟩

variable {node : Node}

/-- A field takes at least twelve bytes. -/
theorem fields_bounded (h : node.encodedLength ≤ maxPagePayload) :
    node.fields.length < 2 ^ 32 ∧ ∀ field ∈ node.fields, field.1.length < 2 ^ 32 := by
  have hmax : maxPagePayload = 8128 := rfl
  have hsum : (node.fields.map fun field => entrySize field.1).sum ≤ 8128 := by
    rw [encodedLength] at h
    omega
  constructor
  · have hcount : node.fields.length ≤ (node.fields.map fun field => entrySize field.1).sum := by
      have hone : ∀ n ∈ node.fields.map fun field => entrySize field.1, 1 ≤ n := by
        intro n hn
        obtain ⟨field, -, rfl⟩ := List.mem_map.mp hn
        exact Nat.le_add_left _ _
      simpa using List.length_le_sum_of_one_le _ hone
    omega
  · intro field hfield
    have hle : entrySize field.1 ≤ (node.fields.map fun field => entrySize field.1).sum :=
      List.single_le_sum (fun _ _ => Nat.zero_le _) _ (List.mem_map_of_mem hfield)
    rw [entrySize] at hle
    omega

theorem decode_bytes (node : Node) (h : node.encodedLength ≤ maxPagePayload)
    (hlevel : node.level < 2 ^ 16) (page : PageId) :
    decode page node.bytes =
      if node.kind = leafKind then
        decodeLeaf page node.level node.fields.length node.auxiliary
        (node.fields.flatMap fieldBytes)
      else decodeInternal page node.level node.fields.length node.auxiliary
        (node.fields.flatMap fieldBytes) := by
  obtain ⟨hmagic, hversion, hkind, hseven, hcount, hlev, hzero, haux, hzeros, hbody⟩ :=
    header_fields node
  have hlen : ¬node.bytes.length < headerSize := by
    rw [length_bytes, encodedLength]
    omega
  have hversion' : readAt node.bytes 4 2 = nodeFormatVersion := by
    rw [readAt, hversion, decode_encode_of_lt (by decide)]
  have hkind' : UInt8.ofNat (readAt node.bytes 6 1) = node.kind := by
    rw [readAt, hkind]
    cases node <;> rfl
  have hcount' : readAt node.bytes 8 4 = node.fields.length := by
    rw [readAt, hcount, decode_encode_of_lt (fields_bounded h).1]
  have hlev' : readAt node.bytes 12 2 = node.level := by
    rw [readAt, hlev, decode_encode_of_lt hlevel]
  have haux' : UInt64.ofNat (readAt node.bytes 16 8) = node.auxiliary := by
    rw [readAt, haux, decode_encode_of_lt node.auxiliary.toNat_lt, UInt64.ofNat_toNat]
  have hreserved : reservedZero node.bytes = true := by
    rw [reservedZero, hseven, hzero, hzeros]
    decide
  unfold decode
  simp only [hmagic, hversion', hkind', hcount', hlev', haux', hreserved, hbody, hlen, ne_eq,
    not_true_eq_false, if_false, Bool.not_true, Bool.false_eq_true]
  cases node <;> rfl

/-- **Round trip**: a sound node is read back from its bytes. -/
theorem decode_encode {payload : Bytes} (hsound : node.Sound) (h : node.encode = .ok payload)
    (page : PageId) : decode page payload = .ok node := by
  rw [encode, ite_error_eq_ok] at h
  obtain ⟨hfits, h⟩ := h
  obtain rfl := Except.ok.inj h
  have hfits' := Nat.le_of_not_lt hfits
  obtain ⟨-, hlens⟩ := fields_bounded hfits'
  cases node with
  | leaf entries next =>
    obtain ⟨hinc, hnext⟩ := hsound
    have hfields := readFields_flatMap page false hlens (by simp) []
    have hinc' : Increasing Prod.fst (leaf entries next).fields :=
      List.pairwise_map.mpr hinc
    have hkind : (leaf entries next).kind = leafKind := rfl
    rw [decode_bytes _ hfits' (by simp [level]) page, if_pos hkind, decodeLeaf,
      if_neg (by simp [level])]
    rw [List.append_nil] at hfields
    simp only [hfields, bind, Except.bind, checkFields_ok page hinc']
    have hentries : (leaf entries next).fields.map (fun field => IndexEntry.mk field.1 field.2) =
        entries := by
      simp [fields, Function.comp_def]
    have hnext' : (if (leaf entries next).auxiliary = noPage then none
        else some (leaf entries next).auxiliary) = next := by
      cases next with
      | none => rfl
      | some page => exact if_neg fun heq => hnext (congrArg some heq)
    rw [hentries, hnext']
    rfl
  | internal level firstChild separators =>
    obtain ⟨hpos, hlevel, hfirst, hchildren, hinc⟩ := hsound
    have hfields := readFields_flatMap page true hlens (fun _ => hchildren) []
    have hkind : ¬(internal level firstChild separators).kind = leafKind :=
      show ¬internalKind = leafKind by decide
    have hpos' : ¬(internal level firstChild separators).level = 0 := Nat.ne_of_gt hpos
    have hfirst' : ¬(internal level firstChild separators).auxiliary = noPage := hfirst
    have hinc' : Increasing Prod.fst (internal level firstChild separators).fields := hinc
    rw [decode_bytes _ hfits' hlevel page, if_neg hkind, decodeInternal, if_neg hpos',
      if_neg hfirst']
    rw [List.append_nil] at hfields
    simp only [hfields, bind, Except.bind, checkFields_ok page hinc']
    rfl

/-! ## what is decoded -/

variable {page : PageId} {bytes rest : Bytes}

/-- A field that was read stands at the front of the bytes. -/
theorem fieldBytes_of_readField {field : Bytes × PageId}
    (h : readField page bytes = .ok (field, rest)) : fieldBytes field ++ rest = bytes := by
  unfold readField at h
  simp only [ite_error_eq_ok] at h
  obtain ⟨hfour, hkey, height, h⟩ := h
  obtain ⟨rfl, rfl⟩ := Prod.mk.inj (Except.ok.inj h)
  have hlength : ((bytes.drop 4).take (readAt bytes 0 4)).length = readAt bytes 0 4 :=
    List.length_take_of_le (Nat.le_of_not_lt hkey)
  have hvalue : (UInt64.ofNat (readAt ((bytes.drop 4).drop (readAt bytes 0 4)) 0 8)).toNat =
      readAt ((bytes.drop 4).drop (readAt bytes 0 4)) 0 8 :=
    UInt64.toNat_ofNat_of_lt (readAt_lt _ 0 8)
  rw [fieldBytes, hlength, hvalue, encode_readAt (by omega), encode_readAt (by omega),
    List.drop_zero, List.drop_zero, List.append_assoc, List.append_assoc, List.take_append_drop,
    List.take_append_drop, List.take_append_drop]

variable {children : Bool} {count : Nat}

theorem readFields_cons (h : readFields page children (count + 1) bytes = .ok (fields, rest)) :
    ∃ field middle fields', readField page bytes = .ok (field, middle) ∧
      readFields page children count middle = .ok (fields', rest) ∧ fields = field :: fields' := by
  obtain ⟨⟨field, middle⟩, hfield, h⟩ := bind_eq_ok.mp h
  rw [ite_error_eq_ok] at h
  obtain ⟨⟨fields', rest'⟩, hfields, h⟩ := bind_eq_ok.mp h.2
  obtain ⟨rfl, rfl⟩ := Prod.mk.inj (Except.ok.inj h)
  exact ⟨field, middle, fields', hfield, hfields, rfl⟩

/-- The fields that were read stand at the front of the bytes, as many as were asked for. -/
theorem fieldBytes_of_readFields (h : readFields page children count bytes = .ok (fields, rest)) :
    fields.flatMap fieldBytes ++ rest = bytes ∧ fields.length = count := by
  induction count generalizing bytes fields with
  | zero =>
    obtain ⟨rfl, rfl⟩ := Prod.mk.inj (Except.ok.inj h)
    exact ⟨rfl, rfl⟩
  | succ count ih =>
    obtain ⟨field, middle, fields', hfield, hfields, rfl⟩ := readFields_cons h
    obtain ⟨hbytes, hcount⟩ := ih hfields
    constructor
    · rw [List.flatMap_cons, List.append_assoc, hbytes, fieldBytes_of_readField hfield]
    · rw [List.length_cons, hcount]

/-- The fields of a body that passed its checks are the whole body. -/
theorem fieldBytes_of_checkFields {body : Bytes}
    (h : readFields page children count body = .ok (fields, rest))
    (hcheck : checkFields page fields rest = .ok ()) :
    fields.flatMap fieldBytes = body ∧ fields.length = count := by
  obtain ⟨hbytes, hcount⟩ := fieldBytes_of_readFields h
  rw [checkFields, ite_error_eq_ok] at hcheck
  rw [not_not.mp hcheck.1, List.append_nil] at hbytes
  exact ⟨hbytes, hcount⟩

/-- A header that was accepted, with the body behind it. -/
theorem bytes_eq_of_header {bytes : Bytes} {kind : UInt8} (hlen : headerSize ≤ bytes.length)
    (hmagic : bytes.take 4 = nodeMagic) (hversion : readAt bytes 4 2 = nodeFormatVersion)
    (hreserved : reservedZero bytes = true) (hkind : UInt8.ofNat (readAt bytes 6 1) = kind) :
    bytes = nodeMagic ++ (LittleEndian.encode 2 nodeFormatVersion ++ ([kind, 0] ++
      (LittleEndian.encode 4 (readAt bytes 8 4) ++ (LittleEndian.encode 2 (readAt bytes 12 2) ++
        ([0, 0] ++ (LittleEndian.encode 8 (readAt bytes 16 8) ++ (List.replicate 8 0 ++
          bytes.drop headerSize))))))) := by
  simp only [reservedZero, Bool.and_eq_true, beq_iff_eq, List.all_eq_true] at hreserved
  obtain ⟨⟨hseven, hfourteen⟩, htwentyFour⟩ := hreserved
  have h32 : 32 ≤ bytes.length := hlen
  have hseven' : (bytes.drop 7).take 1 = [0] := by
    obtain ⟨hlt, hget⟩ := List.getElem?_eq_some_iff.mp hseven
    rw [List.drop_eq_getElem_cons hlt, hget]
    rfl
  have hkind' : LittleEndian.encode 1 (readAt bytes 6 1) = [kind] := by
    rw [LittleEndian.encode, hkind]
    rfl
  calc bytes
      = nodeMagic ++ bytes.drop 4 := by rw [← hmagic, List.take_append_drop]
    _ = nodeMagic ++ (LittleEndian.encode 2 nodeFormatVersion ++ ([kind] ++ ([0] ++
          bytes.drop 8))) := by
        rw [drop_eq_encode_append (show 4 + 2 ≤ _ by omega), hversion,
          drop_eq_encode_append (show 6 + 1 ≤ _ by omega), hkind', drop_eq_take_append bytes 7 1,
          hseven']
    _ = _ := by
        rw [drop_eq_encode_append (show 8 + 4 ≤ _ by omega),
          drop_eq_encode_append (show 12 + 2 ≤ _ by omega), drop_eq_take_append bytes 14 2,
          take_eq_zeros (by omega) hfourteen,
          drop_eq_encode_append (show 16 + 8 ≤ _ by omega), drop_eq_take_append bytes 24 8,
          take_eq_zeros (by omega) htwentyFour]
        rfl

/-- **A decoded node** has the bytes it was decoded from. -/
theorem bytes_of_decode (h : decode page bytes = .ok node) : node.bytes = bytes := by
  simp only [decode, ite_error_eq_ok, not_not, Bool.not_eq_true, Bool.not_eq_false'] at h
  obtain ⟨hlen, hmagic, hversion, hreserved, h⟩ := h
  have hheader := @bytes_eq_of_header bytes _ (Nat.le_of_not_lt hlen) hmagic hversion hreserved rfl
  have haux : (UInt64.ofNat (readAt bytes 16 8)).toNat = readAt bytes 16 8 :=
    UInt64.toNat_ofNat_of_lt (readAt_lt bytes 16 8)
  split at h
  · next hkind =>
    rw [decodeLeaf, ite_error_eq_ok, not_not] at h
    obtain ⟨hlevel, h⟩ := h
    obtain ⟨⟨fields, rest⟩, hfields, h₁⟩ := bind_eq_ok.mp h
    obtain ⟨⟨⟩, hcheck, h₂⟩ := bind_eq_ok.mp h₁
    obtain rfl := Except.ok.inj h₂
    obtain ⟨hbody, hcount⟩ := fieldBytes_of_checkFields hfields hcheck
    have hnext : ((if UInt64.ofNat (readAt bytes 16 8) = noPage then none
        else some (UInt64.ofNat (readAt bytes 16 8))).getD noPage).toNat = readAt bytes 16 8 := by
      split
      · next hno => rw [Option.getD_none, ← hno, haux]
      · rw [Option.getD_some, haux]
    refine .trans ?_ hheader.symm
    simp only [Node.bytes, Node.kind, Node.fields, Node.level, Node.auxiliary, List.map_map,
      Function.comp_def, List.map_id', hnext, hkind, hlevel, hbody, hcount]
  · split at h
    · next hkind =>
      rw [decodeInternal, ite_error_eq_ok, ite_error_eq_ok] at h
      obtain ⟨hlevel, hfirst, h⟩ := h
      obtain ⟨⟨fields, rest⟩, hfields, h₁⟩ := bind_eq_ok.mp h
      obtain ⟨⟨⟩, hcheck, h₂⟩ := bind_eq_ok.mp h₁
      obtain rfl := Except.ok.inj h₂
      obtain ⟨hbody, hcount⟩ := fieldBytes_of_checkFields hfields hcheck
      refine .trans ?_ hheader.symm
      simp only [Node.bytes, Node.kind, Node.fields, Node.level, Node.auxiliary, haux, hkind,
        hbody, hcount]
    · cases h

/-- A node takes all bytes it is decoded from. -/
theorem encodedLength_of_decode (h : decode page bytes = .ok node) :
    node.encodedLength = bytes.length := by
  rw [← length_bytes, bytes_of_decode h]

end Node

end QuantaDb.Index
