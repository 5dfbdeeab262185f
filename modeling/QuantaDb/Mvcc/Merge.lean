import QuantaDb.Mvcc.Record
import QuantaDb.Mvcc.Scans

/-!
# QuantaDb.Mvcc.Merge

Single reads and prefix scans of a transaction, with the pages behind the index.

`Transaction::get` and `Transaction::scan_prefix` answer from three places: the
transaction's own writes, the version map, and the generation that the snapshot
reads.  An entry of the generation leads to a page of version records, and reading
it can fail.  Where it does not, this is the scan of `Mvcc.Machine` over the values
that the entries lead to (`scanPrefix_eq`), so both functions agree on every key
(`scanPrefix_exact`).
-/

namespace QuantaDb.Mvcc

open Fallible TreeMaps

/-- What the two functions look at. -/
structure View where
  finished : Bool
  snapshot : Nat
  writes : Std.TreeMap Key (Option Bytes)
  versions : Std.TreeMap Key (List Version)
  /-- The key map of the tree that the snapshot reads; none without a generation or with an
  empty tree. -/
  index : Option (Std.TreeMap Key PageId)
  /-- The record cache: decodes of pages, which need not be up to date. -/
  cache : Std.TreeMap PageId (List VersionRecord)
  pages : Std.TreeMap PageId Bytes

/-- `max_by_key` on the timestamp: the last of the newest records. -/
def newestRecord (records : List VersionRecord) : Option VersionRecord :=
  records.foldl (fun newest record =>
    if newest.all fun newest => decide (newest.timestamp ≤ record.timestamp) then some record
    else newest) none

namespace View

/-- `ensure_active`. -/
def ensureActive (view : View) : Except TransactionError Unit :=
  if view.finished then .error .inactive else .ok ()

/-- The records of a page that an index entry leads to: as they are in the cache, or else on the
page. -/
def indexedRecords (view : View) (page : PageId) : Except TransactionError (List VersionRecord) :=
  match view.cache[page]? with
  | some records => .ok records
  | none =>
    match view.pages[page]? with
    | none => .error (.corruptRecord page "index points to an absent version page")
    | some payload => do
        let records ← VersionRecord.decodePage page payload
        if records = [] then .error (.corruptRecord page "index points to a non-MVCC page")
        else .ok records

/-- `read_index_version`. -/
def readIndexVersion (view : View) (page : PageId) (key : Key) :
    Except TransactionError (Option Bytes) := do
  let records ← view.indexedRecords page
  match newestRecord (records.filter fun record =>
      record.key == key && decide (record.timestamp ≤ view.snapshot)) with
  | none => .error (.corruptRecord page
      "index points to a page holding no visible version of the key")
  | some visible => .ok visible.value

/-- `read_indexed`. -/
def readIndexed (view : View) (key : Key) : Except TransactionError (Option Bytes) :=
  match view.index.bind fun entries => entries[key]? with
  | none => .ok none
  | some page => view.readIndexVersion page key

/-- `Inner::read`. -/
def read (view : View) (key : Key) : Except TransactionError (Option Bytes) :=
  match visibleVersion (view.versions.getD key []) view.snapshot with
  | some version => .ok version.value
  | none => view.readIndexed key

/-- `Transaction::get`. -/
def get (view : View) (key : Key) : Except TransactionError (Option Bytes) := do
  view.ensureActive
  match view.writes[key]? with
  | some value => .ok value
  | none => view.read key

/-- The versions under a prefix that the map shows to the snapshot. -/
def scanMap (view : View) (start : Bytes) : List (Key × Version) :=
  (versionRange view.versions start).filterMap fun entry =>
    (visibleVersion entry.2 view.snapshot).map fun version => (entry.1, version)

/-- `BPlusTree::range` from a prefix to its end. -/
def scanIndex (view : View) (start : Bytes) : List (Key × PageId) :=
  match view.index with
  | none => []
  | some entries => entries.toList.filter fun entry => inRange start (prefixEnd start) entry.1

/-- An entry of the index that the map does not mask. -/
def addIndexed (view : View) (masked : Std.TreeSet Key) (results : Std.TreeMap Key Bytes)
    (entry : Key × PageId) : Except TransactionError (Std.TreeMap Key Bytes) :=
  if masked.contains entry.1 then .ok results
  else (view.readIndexVersion entry.2 entry.1).map (Transaction.addResult results entry.1)

/-- `Transaction::scan_prefix`. -/
def scanPrefix (view : View) (start : Bytes) : Except TransactionError (List (Key × Bytes)) := do
  view.ensureActive
  let found := view.scanMap start
  let masked := Std.TreeSet.ofList (found.map Prod.fst)
  let results := found.foldl
    (fun results entry => Transaction.addResult results entry.1 entry.2.value) ∅
  let results ← (view.scanIndex start).foldlM (view.addIndexed masked) results
  return ((view.writes.toList.filter fun write => start.isPrefixOf write.1).foldl
    Transaction.putOwn results).toList

/-! ## the generation as a map of values -/

/-- The value that an entry leads to; none for a tombstone or where it cannot be read. -/
def indexValue (view : View) (key : Key) (page : PageId) : Option Bytes :=
  (view.readIndexVersion page key).toOption.bind id

/-- The transaction without what the two functions do not look at. -/
def transaction (view : View) : Transaction where
  id := 0
  snapshot := view.snapshot
  writes := view.writes

/-- The entries of the generation with the values they lead to. -/
def indexVersions (view : View) (entries : Std.TreeMap Key PageId) : Std.TreeMap Key Version :=
  entries.map fun key page => ⟨view.snapshot, view.indexValue key page, page⟩

/-- The state that the transaction reads, with one generation. -/
def state (view : View) : State where
  versions := view.versions
  generations := view.index.toList.map fun entries => ⟨view.snapshot, view.indexVersions entries, 0⟩

variable {view : View}

theorem generationAt_state (view : View) :
    view.state.generationAt view.transaction.snapshot =
      view.index.map fun entries => ⟨view.snapshot, view.indexVersions entries, 0⟩ := by
  unfold State.generationAt state transaction
  cases view.index with
  | none => rfl
  | some entries => simp [Timeline.latest]

theorem get_indexVersions (view : View) (entries : Std.TreeMap Key PageId) (key : Key) :
    (view.indexVersions entries)[key]? =
      entries[key]?.map fun page => ⟨view.snapshot, view.indexValue key page, page⟩ := by
  rw [indexVersions, Std.TreeMap.getElem?_map]

theorem indexValue_eq_some {key : Key} {page : PageId} {value : Bytes} :
    view.indexValue key page = some value ↔ view.readIndexVersion page key = .ok (some value) := by
  unfold indexValue
  cases view.readIndexVersion page key with
  | error error => simp [Except.toOption]
  | ok found => simp [Except.toOption]

theorem indexValue_of_ok {key : Key} {page : PageId} {value : Option Bytes}
    (h : view.readIndexVersion page key = .ok value) : view.indexValue key page = value := by
  rw [indexValue, h]
  rfl

/-- What the state holds for a key that the map says nothing about. -/
theorem read_state_of_none {key : Key}
    (h : visibleVersion (view.versions.getD key []) view.snapshot = none) :
    view.state.read key view.snapshot =
      (view.index.bind fun entries => entries[key]?).bind (view.indexValue key) := by
  have hgeneration := generationAt_state view
  rw [State.read, show view.state.versions = view.versions from rfl, h]
  rw [show view.transaction.snapshot = view.snapshot from rfl] at hgeneration
  simp only [hgeneration]
  cases view.index with
  | none => rfl
  | some entries =>
    simp only [Option.map_some, Option.bind_some, get_indexVersions]
    cases entries[key]? <;> rfl

/-- **Single reads**: where a key has a value, `get` gives the one of the maps. -/
theorem get_eq_some (hactive : view.finished = false) {key : Key} {value : Bytes} :
    view.get key = .ok (some value) ↔
      overlay view.writes (fun key => view.state.read key view.snapshot) key = some value := by
  rw [overlay]
  cases hwrite : view.writes[key]? with
  | some own =>
    have hget : view.get key = .ok own := by
      simp only [get, ensureActive, hactive, hwrite]
      rfl
    simp [hget]
  | none =>
    have hget : view.get key = view.read key := by
      simp only [get, ensureActive, hactive, hwrite]
      rfl
    rw [hget, read, Option.getD_none]
    cases hvisible : visibleVersion (view.versions.getD key []) view.snapshot with
    | some version =>
      rw [State.read, show view.state.versions = view.versions from rfl, hvisible]
      simp
    | none =>
      rw [read_state_of_none hvisible]
      simp only [readIndexed]
      cases view.index.bind fun entries => entries[key]? with
      | none => simp
      | some page => exact indexValue_eq_some.symm

/-- The entries under a prefix, with their values. -/
theorem scanIndex_state (view : View) (start : Bytes) :
    view.transaction.scanIndex view.state start = (view.scanIndex start).map fun entry =>
      (entry.1, ⟨view.snapshot, view.indexValue entry.1 entry.2, entry.2⟩) := by
  rw [Transaction.scanIndex, generationAt_state, scanIndex]
  cases view.index with
  | none => rfl
  | some entries =>
    simp only [Option.map_some, indexVersions, Std.TreeMap.toList_map, List.filter_map]
    rfl

/-- **Scans**: one that returns lists what the scan over the maps finds. -/
theorem scanPrefix_eq {start : Bytes} {results : List (Key × Bytes)}
    (h : view.scanPrefix start = .ok results) :
    results = (view.transaction.scanPrefix view.state start).toList := by
  obtain ⟨_, -, h⟩ := bind_eq_ok.mp h
  obtain ⟨merged, hmerge, h⟩ := bind_eq_ok.mp h
  have hfold := foldlM_eq_foldl (g := fun results entry =>
    if (Std.TreeSet.ofList ((view.scanMap start).map Prod.fst)).contains entry.1 then results
    else Transaction.addResult results entry.1 (view.indexValue entry.1 entry.2)) hmerge (by
      intro entry _ before after hstep
      rw [addIndexed] at hstep
      split at hstep
      · next hmasked => rw [if_pos hmasked, Except.ok.inj hstep]
      · next hmasked =>
        obtain ⟨value, hread, rfl⟩ := map_eq_ok.mp hstep
        rw [if_neg hmasked, indexValue_of_ok hread])
  rw [Transaction.scanPrefix, scanIndex_state, List.foldl_map]
  rw [← Except.ok.inj h, hfold]
  rfl

/-- The map masks an entry of the index where it shows the snapshot a version of its key. -/
theorem masked_iff {start : Bytes} {entry : Key × PageId} (h : entry ∈ view.scanIndex start) :
    (Std.TreeSet.ofList ((view.scanMap start).map Prod.fst)).contains entry.1 = true ↔
      visibleVersion (view.versions.getD entry.1 []) view.snapshot ≠ none := by
  have hkey : start <+: entry.1 := by
    rw [scanIndex] at h
    cases hindex : view.index with
    | none => simp [hindex] at h
    | some entries =>
      rw [hindex] at h
      exact (inRange_prefixEnd start _).mp (List.mem_filter.mp h).2
  have hmap : ∀ version, (entry.1, version) ∈ view.scanMap start ↔
      visibleVersion (view.versions.getD entry.1 []) view.snapshot = some version := by
    intro version
    have hmem : (entry.1, version) ∈ view.transaction.scanMap view.state start ↔ _ :=
      Transaction.mem_scanMap
    exact hmem.trans (and_iff_right hkey)
  rw [Std.TreeSet.contains_iff_mem, mem_ofList_set, Transaction.mem_keys,
    Option.ne_none_iff_exists']
  exact exists_congr hmap

/-- A scan returns exactly if the transaction is active and the entries it has to follow, those
that the map does not mask, can be read. -/
theorem scanPrefix_ok_iff {start : Bytes} :
    (∃ results, view.scanPrefix start = .ok results) ↔ view.finished = false ∧
      ∀ entry ∈ view.scanIndex start,
        visibleVersion (view.versions.getD entry.1 []) view.snapshot = none →
        ∃ value, view.readIndexVersion entry.2 entry.1 = .ok value := by
  constructor
  · rintro ⟨results, hscan⟩
    obtain ⟨_, hensure, h⟩ := bind_eq_ok.mp hscan
    obtain ⟨merged, hmerge, -⟩ := bind_eq_ok.mp h
    refine ⟨?_, fun entry hentry hunmasked => ?_⟩
    · rw [ensureActive] at hensure
      split at hensure
      · cases hensure
      · next hfinished => exact Bool.not_eq_true _ ▸ hfinished
    · obtain ⟨before, after, hstep⟩ := exists_of_mem_foldlM hmerge hentry
      rw [addIndexed, if_neg fun h => (masked_iff hentry).mp h hunmasked] at hstep
      obtain ⟨value, hread, -⟩ := map_eq_ok.mp hstep
      exact ⟨value, hread⟩
  · rintro ⟨hactive, hread⟩
    have hensure : view.ensureActive = .ok () := by
      rw [ensureActive, hactive]
      rfl
    obtain ⟨merged, hmerged⟩ := @exists_foldlM_eq_ok _ _ _
      (view.addIndexed (Std.TreeSet.ofList ((view.scanMap start).map Prod.fst)))
      (view.scanIndex start) ((view.scanMap start).foldl
        (fun results entry => Transaction.addResult results entry.1 entry.2.value) ∅) (by
        intro entry hentry before
        rw [addIndexed]
        split
        · exact ⟨before, rfl⟩
        · next hmasked =>
          obtain ⟨value, hvalue⟩ := hread entry hentry
            (by simpa using mt (masked_iff hentry).mpr hmasked)
          exact ⟨_, by rw [hvalue]; rfl⟩)
    have hscan : view.scanPrefix start =
        .ok ((view.writes.toList.filter fun write => start.isPrefixOf write.1).foldl
          Transaction.putOwn merged).toList :=
      bind_eq_ok.mpr ⟨(), hensure, bind_eq_ok.mpr ⟨merged, hmerged, rfl⟩⟩
    exact ⟨_, hscan⟩

/-- **Prefix scans.**  The range of a prefix holds the keys that start with it.  A scan that
returns lists in strictly increasing order the keys under its prefix for which `get` has a
value, with that value; and it returns exactly if the transaction is active and each entry of
the index under the prefix that no version of the map masks can be read. -/
theorem scanPrefix_exact (view : View) (start : Bytes) :
    (∀ key, inRange start (prefixEnd start) key = true ↔ start <+: key) ∧
    (∀ results, view.scanPrefix start = .ok results →
      (results.Pairwise fun a b => compare a.1 b.1 = .lt) ∧
      ∀ key value, (key, value) ∈ results ↔ start <+: key ∧ view.get key = .ok (some value)) ∧
    ((∃ results, view.scanPrefix start = .ok results) ↔ view.finished = false ∧
      ∀ entry ∈ view.scanIndex start,
        visibleVersion (view.versions.getD entry.1 []) view.snapshot = none →
        ∃ value, view.readIndexVersion entry.2 entry.1 = .ok value) := by
  refine ⟨inRange_prefixEnd start, fun results hscan => ?_, scanPrefix_ok_iff⟩
  have hactive : view.finished = false := (scanPrefix_ok_iff.mp ⟨results, hscan⟩).1
  rw [scanPrefix_eq hscan]
  refine ⟨Std.TreeMap.ordered_keys_toList, fun key value => ?_⟩
  rw [Std.TreeMap.mem_toList_iff_getElem?_eq_some, Transaction.scanPrefix_get, get_eq_some hactive]
  split
  · next hkey =>
    rw [and_iff_right hkey]
    rfl
  · next hkey => simp [hkey]

end View

end QuantaDb.Mvcc
