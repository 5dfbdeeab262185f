import Mathlib

/-!
# QuantaDb.Storage.Page

Pages and the data file that holds them (`page.rs`, `data_file.rs`), with
`splice` and the page changes of `store.rs`.

A page carries the LSN of the last change folded into its payload.  The data
file is modelled at the grain of whole pages: a `Slot` keeps the image the
last sync made durable and the images written since, so that a power failure
can be described by what each slot may be left with.  An image that no longer
decodes is `PageImage.torn`.
-/

namespace QuantaDb

abbrev Bytes := List UInt8

/-- `PageId(pub u64)`. -/
abbrev PageId := UInt64

def pageSize : Nat := 8 * 1024

def pageHeaderSize : Nat := 64

def maxPagePayload : Nat := pageSize - pageHeaderSize

theorem maxPagePayload_eq : maxPagePayload = 8128 := rfl

/-- The errors of `error.rs` that the modelled functions raise. -/
inductive StorageError where
  | io (reason : String)
  | pageTooLarge (actual maximum : Nat)
  | corruptPage (pageId : PageId) (reason : String)
  | corruptDataFile (reason : String)
  | corruptWal (offset : Nat) (reason : String)
  | configuration (reason : String)
  | groupCommit (reason : String)
  | poisoned
deriving DecidableEq, Repr

/-! ## pages -/

/-- A page; no page has a payload that does not fit its block.  `Lsn(pub u64)` is
a number here: the log refuses to count past `u64::MAX`. -/
structure Page where
  id : PageId
  lsn : Nat
  payload : Bytes
  fits : payload.length ≤ maxPagePayload
deriving DecidableEq, Repr

/-- `Page::with_lsn`. -/
def Page.withLsn (id : PageId) (lsn : Nat) (payload : Bytes) : Except StorageError Page :=
  if h : payload.length ≤ maxPagePayload then .ok ⟨id, lsn, payload, h⟩
  else .error (.pageTooLarge payload.length maxPagePayload)

/-- `Page::new`. -/
def Page.new (id : PageId) (payload : Bytes) : Except StorageError Page :=
  Page.withLsn id 0 payload

theorem Page.withLsn_of_fits {id : PageId} {lsn : Nat} {payload : Bytes}
    (h : payload.length ≤ maxPagePayload) :
    Page.withLsn id lsn payload = .ok ⟨id, lsn, payload, h⟩ := by
  simp [Page.withLsn, h]

/-- A page that was made is the page asked for. -/
theorem Page.withLsn_eq_ok {id : PageId} {lsn : Nat} {payload : Bytes} {page : Page}
    (h : Page.withLsn id lsn payload = .ok page) :
    page.id = id ∧ page.lsn = lsn ∧ page.payload = payload := by
  unfold Page.withLsn at h
  split at h
  · cases h; exact ⟨rfl, rfl, rfl⟩
  · cases h

/-! ## splicing -/

/-- Place bytes at an offset, zero filling any gap before them. -/
def splice (base : Bytes) (offset : Nat) (bytes : Bytes) : Bytes :=
  let padded := base ++ List.replicate (offset + bytes.length - base.length) 0
  padded.take offset ++ bytes ++ padded.drop (offset + bytes.length)

theorem length_splice (base : Bytes) (offset : Nat) (bytes : Bytes) :
    (splice base offset bytes).length = max base.length (offset + bytes.length) := by
  simp only [splice, List.length_append, List.length_take, List.length_drop,
    List.length_replicate]
  omega

/-- Placing bytes beyond a part leaves the part. -/
theorem splice_append_add (base rest : Bytes) (k : Nat) (bytes : Bytes) :
    splice (base ++ rest) (base.length + k) bytes = base ++ splice rest k bytes := by
  have hpad : base.length + (k + bytes.length) - (base ++ rest).length =
      k + bytes.length - rest.length := by
    rw [List.length_append]
    omega
  simp only [splice, Nat.add_assoc, hpad, List.append_assoc, List.take_length_add_append,
    List.drop_length_add_append]

/-- Placing bytes at the start replaces what is there. -/
theorem splice_zero (rest bytes : Bytes) :
    splice rest 0 bytes = bytes ++ rest.drop bytes.length := by
  simp [splice, List.drop_append]

/-- Placing bytes where a part ends replaces what follows it. -/
theorem splice_append (base rest bytes : Bytes) :
    splice (base ++ rest) base.length bytes = base ++ (bytes ++ rest.drop bytes.length) := by
  rw [← splice_zero]
  exact splice_append_add base rest 0 bytes

/-! ## page changes -/

/-- `PageWrite`: replace a page. -/
structure PageWrite where
  pageId : PageId
  payload : Bytes
deriving DecidableEq, Repr

/-- `PageAppend`: place bytes at a known offset inside a page. -/
structure PageAppend where
  pageId : PageId
  offset : UInt32
  payload : Bytes
  sealed : Bool
deriving DecidableEq, Repr

/-- `CommittedWrite`: one page change that a batch commit made durable. -/
structure CommittedWrite where
  lsn : Nat
  pageId : PageId
  payload : Bytes
  appendAt : Option UInt32
deriving DecidableEq, Repr

/-- The payload a change leaves, given the one it finds. -/
def CommittedWrite.apply (w : CommittedWrite) (base : Option Bytes) : Bytes :=
  match w.appendAt with
  | some offset => splice (base.getD []) offset.toNat w.payload
  | none => w.payload

/-! ## the data file -/

/-- What a slot of the data file holds: a page that decodes, or bytes that do
not. -/
inductive PageImage where
  | page (page : Page)
  | torn (reason : String)
deriving DecidableEq, Repr

/-- One slot of the data file: the image the last sync made durable, and the
whole pages written since, oldest first. -/
structure Slot where
  synced : Option PageImage := none
  writes : List Page := []
deriving DecidableEq, Repr

/-- What a read of the slot finds. -/
def Slot.current (slot : Slot) : Option PageImage :=
  match slot.writes.getLast? with
  | some page => some (.page page)
  | none => slot.synced

def Slot.write (slot : Slot) (page : Page) : Slot :=
  { slot with writes := slot.writes ++ [page] }

def Slot.sync (slot : Slot) : Slot := { synced := slot.current, writes := [] }

@[simp] theorem Slot.current_write (slot : Slot) (page : Page) :
    (slot.write page).current = some (.page page) := by
  simp [Slot.current, Slot.write]

@[simp] theorem Slot.current_sync (slot : Slot) : slot.sync.current = slot.current := by
  simp [Slot.current, Slot.sync]

structure DataFile where
  slots : Std.TreeMap PageId Slot := ∅

/-- The system keeps no file longer than this: a write that ends behind it fails. -/
def maxFileLength : Nat := 2 ^ 63 - 1

/-- `page_offset`: where a page starts in the data file. -/
def pageOffset (id : PageId) : Except StorageError Nat :=
  if id.toNat * pageSize < 2 ^ 64 then .ok (id.toNat * pageSize)
  else .error (.corruptDataFile "page offset overflow")

/-- Where a page is written, if the file can reach that far. -/
def writeOffset (id : PageId) : Except StorageError Nat :=
  match pageOffset id with
  | .error e => .error e
  | .ok offset =>
    if maxFileLength < offset + pageSize then .error (.io "file too large") else .ok offset

/-- The page has a byte offset. -/
def Addressable (id : PageId) : Prop := id.toNat * pageSize < 2 ^ 64

instance (id : PageId) : Decidable (Addressable id) :=
  inferInstanceAs (Decidable (_ < _))

/-- The data file can hold the page. -/
def Placeable (id : PageId) : Prop := id.toNat * pageSize + pageSize ≤ maxFileLength

instance (id : PageId) : Decidable (Placeable id) :=
  inferInstanceAs (Decidable (_ ≤ _))

theorem Placeable.addressable {id : PageId} (h : Placeable id) : Addressable id := by
  unfold Placeable maxFileLength at h
  unfold Addressable
  omega

theorem pageOffset_of_addressable {id : PageId} (h : Addressable id) :
    pageOffset id = .ok (id.toNat * pageSize) := if_pos h

theorem writeOffset_of_placeable {id : PageId} (h : Placeable id) :
    writeOffset id = .ok (id.toNat * pageSize) := by
  simp only [writeOffset, pageOffset_of_addressable h.addressable]
  exact if_neg (Nat.not_lt.mpr h)

theorem placeable_of_writeOffset {id : PageId} {offset : Nat} (h : writeOffset id = .ok offset) :
    Placeable id := by
  unfold writeOffset pageOffset at h
  split at h
  · cases h
  · next hoffset =>
    split at hoffset
    · cases hoffset
      split at h
      · cases h
      · next hle => exact Nat.not_lt.mp hle
    · cases hoffset

namespace DataFile

def slot (data : DataFile) (id : PageId) : Slot := data.slots[id]?.getD {}

/-- What the bytes of a slot decode to: an absent page is `none`, a damaged one an error. -/
def decode (data : DataFile) (id : PageId) : Except StorageError (Option Page) :=
  match (data.slot id).current with
  | none => .ok none
  | some (.torn reason) => .error (.corruptPage id reason)
  | some (.page page) =>
    if page.id = id then .ok (some page)
    else .error (.corruptPage id s!"page header contains ID {page.id}")

/-- `read_shared`: a page behind the end of the file is absent, and no file is longer than
the system allows. -/
def read (data : DataFile) (id : PageId) : Except StorageError (Option Page) :=
  match pageOffset id with
  | .error e => .error e
  | .ok offset => if maxFileLength < offset + pageSize then .ok none else data.decode id

def write (data : DataFile) (page : Page) : DataFile :=
  ⟨data.slots.insert page.id ((data.slot page.id).write page)⟩

def sync (data : DataFile) : DataFile := ⟨data.slots.map fun _ slot => slot.sync⟩

/-- `page_count`: one past the last slot of the file. -/
def pageCount (data : DataFile) : Nat :=
  data.slots.keys.foldl (fun count id => max count (id.toNat + 1)) 0

/-- The newest LSN once one more page is read. -/
def newerLsn (data : DataFile) (maximum raw : Nat) : Except StorageError Nat :=
  match data.read (UInt64.ofNat raw) with
  | .error e => .error e
  | .ok none => .ok maximum
  | .ok (some page) => .ok (max maximum page.lsn)

/-- `max_lsn`: the newest LSN on any page, reading them all. -/
def maxLsn (data : DataFile) : Except StorageError Nat :=
  (List.range data.pageCount).foldlM data.newerLsn 0

theorem read_of_placeable (data : DataFile) {id : PageId} (h : Placeable id) :
    data.read id = data.decode id := by
  simp only [read, pageOffset_of_addressable h.addressable]
  exact if_neg (Nat.not_lt.mpr h)

theorem read_of_not_placeable (data : DataFile) {id : PageId} (h : Addressable id)
    (hn : ¬Placeable id) : data.read id = .ok none := by
  simp only [read, pageOffset_of_addressable h]
  exact if_pos (Nat.not_le.mp hn)

@[simp] theorem slot_write_self (data : DataFile) (page : Page) :
    (data.write page).slot page.id = (data.slot page.id).write page := by
  simp [slot, write]

theorem slot_write_of_ne (data : DataFile) {page : Page} {id : PageId} (h : page.id ≠ id) :
    (data.write page).slot id = data.slot id := by
  simp [slot, write, Std.TreeMap.getElem?_insert, h]

@[simp] theorem slot_sync (data : DataFile) (id : PageId) :
    data.sync.slot id = (data.slot id).sync := by
  simp only [slot, sync, Std.TreeMap.getElem?_map]
  cases data.slots[id]? with
  | none => rfl
  | some slot => rfl

/-- A file reaches past `raw` exactly when it has a slot from there on. -/
theorem lt_pageCount_iff {data : DataFile} {raw : Nat} :
    raw < data.pageCount ↔ ∃ id ∈ data.slots.keys, raw ≤ id.toNat := by
  have aux : ∀ (ids : List PageId) (n : Nat),
      raw < ids.foldl (fun count id => max count (id.toNat + 1)) n ↔
        raw < n ∨ ∃ id ∈ ids, raw ≤ id.toNat := by
    intro ids
    induction ids with
    | nil => intro n; simp
    | cons id ids ih =>
      intro n
      have hmax : raw < max n (id.toNat + 1) ↔ raw < n ∨ raw ≤ id.toNat := by omega
      rw [List.foldl_cons, ih, hmax]
      simp only [List.mem_cons, exists_eq_or_imp, or_assoc]
  simpa [pageCount] using aux data.slots.keys 0

/-- Every slot that holds anything lies inside the file. -/
theorem lt_pageCount {data : DataFile} {id : PageId} (h : (data.slot id).current ≠ none) :
    id.toNat < data.pageCount := by
  refine lt_pageCount_iff.mpr ⟨id, ?_, Nat.le_refl _⟩
  rw [Std.TreeMap.mem_keys]
  apply Classical.byContradiction
  intro hn
  apply h
  simp [slot, Std.TreeMap.getElem?_eq_none hn, Slot.current]

/-- Writing a page makes the file reach to that page at most. -/
theorem lt_pageCount_write {data : DataFile} {page : Page} {raw : Nat}
    (h : raw < (data.write page).pageCount) : raw < data.pageCount ∨ raw ≤ page.id.toNat := by
  obtain ⟨id, hid, hle⟩ := lt_pageCount_iff.mp h
  simp only [write, Std.TreeMap.mem_keys, Std.TreeMap.mem_insert] at hid
  rcases hid with hid | hid
  · right
    rw [Std.compare_eq_iff_eq] at hid
    rw [hid]; exact hle
  · exact Or.inl (lt_pageCount_iff.mpr ⟨id, Std.TreeMap.mem_keys.mpr hid, hle⟩)

@[simp] theorem pageCount_sync (data : DataFile) : data.sync.pageCount = data.pageCount := by
  simp [pageCount, sync]

end DataFile

end QuantaDb
