import QuantaDb.Lib.Timeline
import QuantaDb.Lib.TreeMaps
import QuantaDb.Storage.Page

/-!
# QuantaDb.Mvcc.State

The multi-version state (`mvcc/database.rs`): the version map with its write
intents, active snapshots and visibility watermark, the ring of published index
generations, and the sweep that reclaims what no snapshot can ask for.

Everything here runs under the state lock, one function at a time.  A generation
is taken as the key map its tree represents, from a key to the version its entry
leads to.  Timestamps and transaction IDs count in `u64`; the two places where
they could run out are checked as in the source.
-/

namespace QuantaDb.Mvcc

abbrev Key := Bytes

inductive TransactionError where
  | storage (error : StorageError)
  | writeConflict (key : Key)
  | rangeConflict (under : Bytes)
  | inactive
  | recordTooLarge (actual maximum : Nat)
  | corruptRecord (pageId : PageId) (reason : String)
  | transactionIdExhausted
  | timestampExhausted
deriving DecidableEq, Repr

/-- `Version`. -/
structure Version where
  timestamp : Nat
  value : Option Bytes
  pageId : PageId
deriving DecidableEq, Repr

/-- The newest version a snapshot can see, in an ascending list. -/
abbrev visibleVersion (versions : List Version) (snapshot : Nat) : Option Version :=
  Timeline.latest Version.timestamp versions snapshot

/-- `IndexGeneration`. -/
structure Generation where
  timestamp : Nat
  entries : Std.TreeMap Key Version
  manifestPageId : PageId

/-- `State`. -/
structure State where
  versions : Std.TreeMap Key (List Version) := ∅
  pageRefs : Std.TreeMap PageId Nat := ∅
  intents : Std.TreeMap Key Nat := ∅
  active : Std.TreeMap Nat Nat := ∅
  completedTimestamps : Std.TreeSet Nat := ∅
  nextTransactionId : Nat := 1
  nextCommitTimestamp : Nat := 1
  visibleThrough : Nat := 0
  generations : List Generation := []
  dirtyKeys : Std.TreeSet Key := ∅

/-! ## prefixes -/

/-- The last byte that is not `0xff` is raised and what follows it dropped. -/
def raiseLast : List UInt8 → Option Bytes
  | [] => none
  | byte :: rest => if byte = 255 then raiseLast rest else some ((byte + 1) :: rest).reverse

/-- `prefix_end`: the first key behind all those that start with the prefix. -/
def prefixEnd (start : Bytes) : Option Bytes := raiseLast start.reverse

/-- The half-open range of keys that `version_range` and `BPlusTree::range` walk. -/
def inRange (start : Bytes) (end_ : Option Bytes) (key : Key) : Bool :=
  (compare start key).isLE && end_.all fun stop => (compare key stop).isLT

/-- `version_range`. -/
def versionRange (versions : Std.TreeMap Key (List Version)) (start : Bytes) :
    List (Key × List Version) :=
  versions.toList.filter fun entry => inRange start (prefixEnd start) entry.1

namespace State

/-! ## generations -/

/-- `latest_generation`. -/
def latestGeneration (st : State) : Option Generation := st.generations.getLast?

/-- `generation_at`: the newest generation whose snapshot is not newer. -/
def generationAt (st : State) (snapshot : Nat) : Option Generation :=
  Timeline.latest Generation.timestamp st.generations snapshot

/-- `oldest_active_snapshot`. -/
def oldestActiveSnapshot (st : State) : Nat :=
  (st.active.toList.map Prod.snd).min?.getD st.visibleThrough

/-- The order of the ring. -/
def ringLe (a b : Nat × PageId) : Bool :=
  decide (a.1 < b.1) || (a.1 == b.1 && decide (a.2 ≤ b.2))

def ringKey (g : Generation) : Nat × PageId := (g.timestamp, g.manifestPageId)

/-- `publish_generation`. -/
def publishGeneration (st : State) (g : Generation) : State :=
  let before := st.generations.takeWhile fun existing => ringLe (ringKey existing) (ringKey g)
  let after := st.generations.dropWhile fun existing => ringLe (ringKey existing) (ringKey g)
  if before.getLast?.any fun previous => ringKey previous == ringKey g then st
  else { st with generations := before ++ g :: after }

/-! ## reclamation -/

/-- The closure `release` of `reclaim_covered`: one reference to a page less. -/
def release (protect : Option PageId) (acc : Std.TreeMap PageId Nat × List PageId)
    (pageId : PageId) : Std.TreeMap PageId Nat × List PageId :=
  match acc.1[pageId]? with
  | none => acc
  | some remaining =>
    if remaining - 1 = 0 then
      (acc.1.erase pageId, if protect = some pageId then acc.2 else acc.2 ++ [pageId])
    else (acc.1.insert pageId (remaining - 1), acc.2)

/-- The only version of a key is one that the covering generation holds. -/
def fullyCovered (cover : Nat) : List Version → Bool
  | [version] => version.timestamp ≤ cover
  | _ => false

/-- What the sweep leaves of a key; none if the key leaves the map. -/
def sweepKey (st : State) (oldestActive : Nat) (cover : Option Nat) (key : Key)
    (versions : List Version) : Option (List Version) :=
  let rest := Timeline.kept Version.timestamp versions oldestActive
  match cover with
  | none => some rest
  | some cover =>
    if fullyCovered cover rest && !st.dirtyKeys.contains key && !st.intents.contains key then none
    else some rest

/-- The versions below the newest one that the oldest snapshot can see, in key
order. -/
def drainedVersions (st : State) (oldestActive : Nat) : List (Key × Version) :=
  st.versions.toList.flatMap fun entry =>
    (Timeline.drained Version.timestamp entry.2 oldestActive).map fun version => (entry.1, version)

/-- `reclaim_covered`: the pages nothing refers to any more, and the state
without what was reclaimed. -/
def reclaimCovered (st : State) (protect : Option PageId) : List PageId × State :=
  let oldestActive := st.oldestActiveSnapshot
  let generations := Timeline.kept Generation.timestamp st.generations oldestActive
  let manifests := (Timeline.drained Generation.timestamp st.generations oldestActive).map
    Generation.manifestPageId
  let cover := (Timeline.latest Generation.timestamp generations oldestActive).map
    Generation.timestamp
  let released := (st.drainedVersions oldestActive).map fun entry => entry.2.pageId
  let (pageRefs, freed) := released.foldl (release protect) (st.pageRefs, [])
  (manifests ++ freed, { st with
    generations
    versions := st.versions.filterMap (st.sweepKey oldestActive cover)
    pageRefs })

/-! ## transactions -/

/-- `MvccDatabase::begin`, the part under the lock: the snapshot is the
watermark. -/
def begin (st : State) : Except TransactionError (Nat × State) :=
  if 2 ^ 64 ≤ st.nextTransactionId + 1 then .error .transactionIdExhausted
  else .ok (st.nextTransactionId, { st with
    nextTransactionId := st.nextTransactionId + 1
    active := st.active.insert st.nextTransactionId st.visibleThrough })

/-- `Inner::read`, with the entry of a generation taken for the version it leads
to. -/
def read (st : State) (key : Key) (snapshot : Nat) : Option Bytes :=
  match visibleVersion (st.versions.getD key []) snapshot with
  | some version => version.value
  | none => ((st.generationAt snapshot).bind fun g => g.entries[key]?).bind Version.value

/-- The last version of a key is newer than the snapshot. -/
def hasNewer (snapshot : Nat) (versions : List Version) : Bool :=
  versions.getLast?.any fun version => decide (snapshot < version.timestamp)

/-- The key has an intent of another transaction. -/
def hasForeignIntent (st : State) (id : Nat) (key : Key) : Bool :=
  st.intents[key]?.any fun owner => owner != id

/-- The first loop of `prepare_commit`. -/
def writeConflict (st : State) (id : Nat) (snapshot : Nat) (keys : List Key) :
    Option Key :=
  keys.find? fun key =>
    st.hasForeignIntent id key || hasNewer snapshot (st.versions.getD key [])

/-- The second loop of `prepare_commit`. -/
def rangeConflict (st : State) (id : Nat) (snapshot : Nat)
    (scanned : List Bytes) : Option Bytes :=
  scanned.find? fun start =>
    (versionRange st.versions start).any (fun entry => hasNewer snapshot entry.2) ||
      st.intents.toList.any fun intent => intent.2 != id && start.isPrefixOf intent.1

/-- `prepare_commit`. -/
def prepareCommit (st : State) (id : Nat) (snapshot : Nat) (keys : List Key)
    (scanned : List Bytes) : Except TransactionError (Nat × State) :=
  match st.writeConflict id snapshot keys with
  | some key => .error (.writeConflict key)
  | none =>
    match st.rangeConflict id snapshot scanned with
    | some start => .error (.rangeConflict start)
    | none =>
      if 2 ^ 64 ≤ st.nextCommitTimestamp + 1 then .error .timestampExhausted
      else .ok (st.nextCommitTimestamp, { st with
        nextCommitTimestamp := st.nextCommitTimestamp + 1
        intents := keys.foldl (fun intents key => intents.insert key id) st.intents })

/-- The versions of a key with one more, unless its timestamp is there already. -/
def insertVersion (versions : List Version) (version : Version) : Option (List Version) :=
  let before := versions.takeWhile fun existing => existing.timestamp < version.timestamp
  let after := versions.dropWhile fun existing => existing.timestamp < version.timestamp
  if after.head?.any fun existing => existing.timestamp == version.timestamp then none
  else some (before ++ version :: after)

/-- The loop of `finish_prepared` over the writes that were persisted. -/
def publishVersions (timestamp : Nat) (position : Nat) :
    List ((Key × Option Bytes) × PageId) → State → Option TransactionError × State
  | [], st => (none, st)
  | ((key, value), pageId) :: rest, st =>
    match insertVersion (st.versions.getD key []) ⟨timestamp, value, pageId⟩ with
    | none =>
      (some (.corruptRecord pageId
        s!"duplicate commit timestamp {timestamp} at write {position}"), st)
    | some versions =>
      publishVersions timestamp (position + 1) rest { st with
        versions := st.versions.insert key versions
        pageRefs := st.pageRefs.insert pageId (st.pageRefs.getD pageId 0 + 1)
        dirtyKeys := st.dirtyKeys.insert key }

/-- The loop at the end of `finish_prepared`; each turn takes one completed
timestamp out of the set. -/
def advanceWatermark : Nat → State → State
  | 0, st => st
  | turns + 1, st =>
    if st.visibleThrough + 1 < 2 ^ 64 ∧ st.visibleThrough + 1 ∈ st.completedTimestamps then
      advanceWatermark turns { st with
        completedTimestamps := st.completedTimestamps.erase (st.visibleThrough + 1)
        visibleThrough := st.visibleThrough + 1 }
    else st

/-- A timestamp is done with. -/
def complete (st : State) (timestamp : Nat) : State :=
  let st := { st with completedTimestamps := st.completedTimestamps.insert timestamp }
  advanceWatermark st.completedTimestamps.size st

/-- The intents of a transaction on the keys it wrote go. -/
def dropIntents (st : State) (id : Nat) (keys : List Key) : State :=
  { st with intents := keys.foldl (fun intents key =>
      if intents[key]? = some id then intents.erase key else intents) st.intents }

/-- `finish_prepared`: with the pages of its writes a commit is published,
without them it is abandoned. -/
def finishPrepared (st : State) (id : Nat) (timestamp : Nat)
    (writes : List (Key × Option Bytes)) (pageIds : Option (List PageId)) :
    Option TransactionError × State :=
  let st := st.dropIntents id (writes.map Prod.fst)
  match pageIds with
  | none => (none, st.complete timestamp)
  | some pageIds =>
    match publishVersions timestamp 0 (writes.zip pageIds) st with
    | (some error, st) => (some error, st)
    | (none, st) => (none, st.complete timestamp)

/-- `end_transaction`. -/
def endTransaction (st : State) (id : Nat) : State :=
  { st with active := st.active.erase id }

end State

/-! ## index generations -/

/-- `IndexMutation`. -/
inductive Mutation where
  | upsert (key : Key) (version : Version)
  | delete (key : Key)
deriving DecidableEq, Repr

/-- What a mutation does to the key map. -/
def Mutation.apply (entries : Std.TreeMap Key Version) : Mutation → Std.TreeMap Key Version
  | upsert key version => entries.insert key version
  | delete key => entries.erase key

/-- The mutation that brings a key up to date with one of its versions. -/
def mutationOf (key : Key) (version : Version) : Mutation :=
  match version.value with
  | none => .delete key
  | some _ => .upsert key version

/-- What `rebuild_index` captures under the lock, and the key map it makes of it. -/
structure Build where
  timestamp : Nat
  entries : Std.TreeMap Key Version

namespace State

/-- The mutations of `rebuild_index` on top of a generation. -/
def mutations (st : State) (timestamp : Nat) (base : Generation) : List Mutation :=
  st.dirtyKeys.toList.filterMap fun key =>
    (visibleVersion (st.versions.getD key []) timestamp).bind fun newest =>
      if newest.timestamp ≤ base.timestamp then none else some (mutationOf key newest)

/-- `current_index_entries`. -/
def currentIndexEntries (st : State) (snapshot : Nat) : Std.TreeMap Key Version :=
  st.versions.filterMap fun _ versions =>
    (visibleVersion versions snapshot).filter fun version => version.value.isSome

/-- The first part of `rebuild_index`; none if the newest generation is up to
date. -/
def capture (st : State) : Option Build :=
  match st.latestGeneration with
  | none => some ⟨st.visibleThrough, st.currentIndexEntries st.visibleThrough⟩
  | some base =>
    if base.timestamp = st.visibleThrough then none
    else some ⟨st.visibleThrough,
      (st.mutations st.visibleThrough base).foldl Mutation.apply base.entries⟩

/-- The dirty keys that a generation leaves. -/
def retainDirty (st : State) (timestamp : Nat) : State :=
  { st with dirtyKeys := st.dirtyKeys.filter fun key =>
      (st.versions.getD key []).any fun version => decide (timestamp < version.timestamp) }

/-- The second part of `rebuild_index`: the generation is published and what it
covers is reclaimed. -/
def publish (st : State) (g : Generation) (openPage : Option PageId) : List PageId × State :=
  ((st.publishGeneration g).retainDirty g.timestamp).reclaimCovered openPage

/-! ## opening -/

/-- The loop of `MvccDatabase::open` over the records of the pages. -/
def recoverRecord (acc : Std.TreeMap Key (List Version) × Std.TreeMap PageId Nat)
    (record : Key × Version) :
    Except TransactionError (Std.TreeMap Key (List Version) × Std.TreeMap PageId Nat) :=
  let versions := acc.1.getD record.1 []
  if versions.any fun version => version.timestamp == record.2.timestamp then
    .error (.corruptRecord record.2.pageId
      s!"duplicate version timestamp {record.2.timestamp} for one key")
  else .ok (acc.1.insert record.1 (versions ++ [record.2]),
    acc.2.insert record.2.pageId (acc.2.getD record.2.pageId 0 + 1))

/-- The greatest timestamp of a record, zero if there is none. -/
def maximumTimestamp (records : List (Key × Version)) : Nat :=
  records.foldl (fun maximum record => max maximum record.2.timestamp) 0

/-- The manifests that can be used, in the order of the ring. -/
def usableGenerations (maximum : Nat) (manifests : List Generation) : List Generation :=
  (manifests.filter fun g => decide (g.timestamp ≤ maximum)).mergeSort
    fun a b => ringLe (ringKey a) (ringKey b)

/-- Keys with versions that the newest generation does not have. -/
def unindexedKeys (versions : Std.TreeMap Key (List Version)) (indexedThrough : Nat) :
    Std.TreeSet Key :=
  Std.TreeSet.ofList (versions.toList.filterMap fun entry =>
    if entry.2.any fun version => decide (indexedThrough < version.timestamp) then some entry.1
    else none)

/-- The state of `MvccDatabase::open`, from the records and manifests its scan of
the pages found, and the pages it frees. -/
def «open» (records : List (Key × Version)) (manifests : List Generation) :
    Except TransactionError (List PageId × State) :=
  match records.foldlM recoverRecord (∅, ∅) with
  | .error error => .error error
  | .ok (versions, pageRefs) =>
    let versions := versions.map fun _ versions =>
      versions.mergeSort fun a b => decide (a.timestamp ≤ b.timestamp)
    let maximum := maximumTimestamp records
    let generations := usableGenerations maximum manifests
    let indexedThrough := (generations.getLast?.map Generation.timestamp).getD 0
    if 2 ^ 64 ≤ maximum + 1 then .error .timestampExhausted
    else .ok (reclaimCovered {
      versions
      pageRefs
      generations
      nextCommitTimestamp := maximum + 1
      visibleThrough := maximum
      dirtyKeys := unindexedKeys versions indexedThrough } none)

end State

end QuantaDb.Mvcc
