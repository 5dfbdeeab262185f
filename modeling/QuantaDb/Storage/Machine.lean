import QuantaDb.Storage.GroupCommit

/-!
# QuantaDb.Storage.Machine

Whole runs of a page store: calls that return or fail, the background
checkpointer between them, the process dying at any I/O call, power failures,
and reopening.

The process dies at one of the media a call passes through (`Step.halt`); what
it had issued is then still in the operating system's cache, and may be read
back by a process that opens the store again.  A power failure
(`Step.losePower`) comes on top of that and keeps what `Disk.Crash` says.

`Ledger` is what the store is for, seen from outside: the batches it was given
in order, and how many of them can no longer be lost.
-/

namespace QuantaDb

open DurableStore

/-! ## power failure -/

/-- What a power failure can leave of a slot: the durable image, any whole page
written since, or, where pages tear, bytes that do not decode. -/
inductive Slot.Leaves (tears : Bool) (slot : Slot) : Option PageImage → Prop where
  | old : Slot.Leaves tears slot slot.synced
  | new (page : Page) (h : page ∈ slot.writes) : Slot.Leaves tears slot (some (.page page))
  | torn (reason : String) (ht : tears = true) (hw : slot.writes ≠ []) :
      Slot.Leaves tears slot (some (.torn reason))

/-- What a power failure can leave of a segment: the durable records and a
prefix of those written since, or nothing if a stop marker was under way. -/
inductive SegmentFile.Leaves (file : SegmentFile) : List WalRecord → Prop where
  | kept (count : Nat) : SegmentFile.Leaves file (file.synced ++ file.written.take count)
  | stopped (h : file.stopped = true) : SegmentFile.Leaves file []

/-- A power failure takes one disk to the other. -/
structure Disk.Crash (tears : Bool) (d d' : Disk) : Prop where
  segments : ∀ i, ∃ records, (d.segments i).Leaves records ∧
    d'.segments i = { synced := records }
  slots : ∀ id, ∃ image, (d.data.slot id).Leaves tears image ∧
    d'.data.slot id = { synced := image }
  pageCount : d'.data.pageCount ≤ d.data.pageCount

/-- One of the disks a power failure can leave: the durable part of the log, and
what `pick` says of each slot. -/
def Disk.lose (pick : Slot → Option PageImage) (d : Disk) : Disk :=
  ⟨⟨d.data.slots.map fun _ slot => { synced := pick slot }⟩,
    fun i => { synced := (d.segments i).synced }⟩

theorem Disk.crash_lose {tears : Bool} {pick : Slot → Option PageImage}
    (hpick : ∀ slot : Slot, slot.Leaves tears (pick slot)) (d : Disk) :
    d.Crash tears (d.lose pick) := by
  have hnone : pick {} = none := by
    generalize hp : pick {} = image
    have hl := hp ▸ hpick {}
    cases hl with
    | old => rfl
    | new page h => cases h
    | torn reason ht hw => exact absurd rfl hw
  refine ⟨fun i => ⟨(d.segments i).synced, ?_, rfl⟩, fun id => ⟨pick (d.data.slot id), hpick _, ?_⟩,
    ?_⟩
  · have hkept : (d.segments i).Leaves _ := .kept 0
    simpa using hkept
  · simp only [Disk.lose, DataFile.slot, Std.TreeMap.getElem?_map]
    cases d.data.slots[id]? with
    | none => simp [hnone]
    | some slot => rfl
  · simp [Disk.lose, DataFile.pageCount]

/-- A power failure that keeps exactly what was synced. -/
def Disk.keepSynced : Disk → Disk := Disk.lose Slot.synced

/-- A power failure that keeps every page written to the data file. -/
def Disk.keepWrites : Disk → Disk := Disk.lose Slot.current

/-- A power failure that tears every page written since the last sync. -/
def Disk.tearWrites : Disk → Disk :=
  Disk.lose fun slot => if slot.writes = [] then slot.synced else some (.torn "checksum mismatch")

theorem Disk.crash_keepSynced (tears : Bool) (d : Disk) : d.Crash tears d.keepSynced :=
  d.crash_lose fun _ => .old

theorem Disk.crash_keepWrites (tears : Bool) (d : Disk) : d.Crash tears d.keepWrites := by
  refine d.crash_lose fun slot => ?_
  unfold Slot.current
  cases hl : slot.writes.getLast? with
  | none => exact .old
  | some page => exact .new page (List.mem_of_getLast? hl)

theorem Disk.crash_tearWrites (d : Disk) : d.Crash true d.tearWrites := by
  refine d.crash_lose fun slot => ?_
  split
  · exact .old
  · next hw => exact .torn _ rfl hw

/-- A store that opens with records in both segments takes a checkpoint; the log has
room for its record, also where the file is extended by the 64 MiB it grows by. -/
def Disk.HasRoom (d : Disk) : Prop :=
  let wal := (Wal.attach d.segments).1
  wal.bothSegmentsLive = true → wal.nextLsn + 1 < 2 ^ 64 ∧
    (wal.segments wal.active).endOffset + WalKind.checkpoint.recordLength + 2 ^ 26 ≤
      maxFileLength ∧
    ∀ id page, (d.data.slot id).current = some (.page page) → page.lsn + 2 < 2 ^ 64

/-! ## what callers give the store -/

/-- One page change as its caller gave it. -/
structure Change where
  pageId : PageId
  payload : Bytes
  appendAt : Option UInt32
deriving DecidableEq, Repr

abbrev Batch := List Change

def PageWrite.change (write : PageWrite) : Change := ⟨write.pageId, write.payload, none⟩

def PageAppend.change (append : PageAppend) : Change :=
  ⟨append.pageId, append.payload, some append.offset⟩

/-- A change that a reopened store can read back from the log and put in its place: the
data file can hold the page, and an append fits a log record with its offset. -/
def Change.Loggable (c : Change) : Prop :=
  Placeable c.pageId ∧ (c.appendAt ≠ none → 4 + c.payload.length ≤ maxPagePayload)

instance (c : Change) : Decidable c.Loggable :=
  inferInstanceAs (Decidable (_ ∧ _))

/-- The log record of a change. -/
def Change.kind (c : Change) : WalKind :=
  match c.appendAt with
  | some offset => .pageAppend c.pageId offset c.payload
  | none => .pageImage c.pageId c.payload

/-- The reader of the log stops at long appends only. -/
theorem Change.readable_iff {c : Change} (hid : c.pageId.toNat ≠ noPageId) :
    Readable c.kind ↔ (c.appendAt ≠ none → 4 + c.payload.length ≤ maxPagePayload) := by
  unfold kind
  cases c.appendAt with
  | none => simp [Readable, hid]
  | some offset => simp [Readable, hid]

theorem Change.Loggable.readable {c : Change} (h : c.Loggable) : Readable c.kind := by
  refine (Change.readable_iff ?_).mpr h.2
  have hplace := h.1
  unfold Placeable maxFileLength pageSize at hplace
  unfold noPageId
  omega

/-- An image replaces the page's payload, an append splices into it. -/
def Change.apply (c : Change) (base : Option Bytes) : Bytes :=
  match c.appendAt with
  | some offset => splice (base.getD []) offset.toNat c.payload
  | none => c.payload

/-- The payload of a page after the changes, in order. -/
def payloadAfter (payload : Option Bytes) (changes : List Change) (id : PageId) : Option Bytes :=
  changes.foldl (fun payload c => if c.pageId = id then some (c.apply payload) else payload) payload

/-- The payload of every page after the batches, in order. -/
def contents (batches : List Batch) (id : PageId) : Option Bytes :=
  payloadAfter none batches.flatten id

theorem contents_concat (batches : List Batch) (batch : Batch) (id : PageId) :
    contents (batches ++ [batch]) id = payloadAfter (contents batches id) batch id := by
  simp [contents, payloadAfter, List.foldl_append]

/-! ## calls -/

inductive Call where
  | writePages (writes : List PageWrite) (durable : Bool)
  | appendPages (order : HashOrder) (appends : List PageAppend)
  | executeGroup (order : HashOrder) (requests : List CommitRequest)
  | flushSomeDirty (budget : Nat)
  | paceFlush (flushPagesPerBatch : Nat)
  | checkpoint (order : HashOrder)

namespace Call

def prog : Call → StoreM Unit
  | writePages writes durable => do let _ ← writePagesWith writes durable
  | appendPages order appends => do let _ ← DurableStore.appendPages order appends
  | executeGroup order requests => do let _ ← DurableStore.executeGroup order requests
  | flushSomeDirty budget => do let _ ← DurableStore.flushSomeDirty budget
  | paceFlush pages => DurableStore.paceFlush pages
  | checkpoint order => do let _ ← DurableStore.checkpoint order

/-- A list of changes as a batch of the log, none if there is nothing to log. -/
def batch (changes : Batch) : List Batch := if changes = [] then [] else [changes]

/-- The batches a call logs, in order. -/
def batches : Call → List Batch
  | writePages writes _ => batch (writes.map PageWrite.change)
  | appendPages _ appends => batch (appends.map PageAppend.change)
  | executeGroup _ requests =>
    batch ((requests.flatMap (·.writes)).map PageWrite.change) ++
      batch ((requests.flatMap (·.appends)).map PageAppend.change)
  | flushSomeDirty _ => []
  | paceFlush _ => []
  | checkpoint _ => []

/-- Every change that the call logs can be read back. -/
def Loggable (call : Call) : Prop := ∀ batch ∈ call.batches, ∀ c ∈ batch, c.Loggable

instance (call : Call) : Decidable call.Loggable :=
  inferInstanceAs (Decidable (∀ batch ∈ _, _))

/-- Whether the call promises durability; an empty batch promises nothing. -/
def durable : Call → Bool
  | writePages writes durable => durable && !writes.isEmpty
  | appendPages _ appends => !appends.isEmpty
  | executeGroup _ requests => requests.any (·.durable)
  | flushSomeDirty _ => false
  | paceFlush _ => false
  | checkpoint _ => false

end Call

/-! ## runs -/

/-- The checkpoint has listed the page and not read it yet, and the data file
does not hold it as it stands. -/
def BackgroundCheckpoint.Exposes (job : BackgroundCheckpoint) (s : DurableStore) (id : PageId) :
    Prop :=
  ∃ page, s.dirty[id]? = some page ∧ (id, page.lsn) ∈ job.manifest ∧
    (s.data.slot id).current ≠ some (.page page)

/-- A store between two steps: closed on its files, or open, with the background
checkpoint in progress if there is one. -/
inductive Node where
  | down (disk : Disk)
  | up (store : DurableStore) (job : Option BackgroundCheckpoint)

inductive Label where
  | reopened
  | haltedOpening
  | lostPower
  | returned (call : Call)
  | failed (call : Call)
  | halted (call : Call)
  | closed
  | began
  | ran
  | completed
  | aborted

inductive Step (tears : Bool) : Node → Label → Node → Prop where
  | reopen {d : Disk} (order : HashOrder) (h : («open» order d).result = .ok ()) :
      Step tears (.down d) .reopened (.up («open» order d).state none)
  | haltOpening {d d' : Disk} (order : HashOrder) (h : d' ∈ («open» order d).during) :
      Step tears (.down d) .haltedOpening (.down d')
  | losePower {d d' : Disk} (h : d.Crash tears d') : Step tears (.down d) .lostPower (.down d')
  | «return» {s : DurableStore} {job : Option BackgroundCheckpoint} (call : Call)
      (h : (call.prog s).result = .ok ()) :
      Step tears (.up s job) (.returned call) (.up (call.prog s).state job)
  | fail {s : DurableStore} {job : Option BackgroundCheckpoint} (call : Call) (e : StorageError)
      (h : (call.prog s).result = .error e) :
      Step tears (.up s job) (.failed call) (.up (call.prog s).state job)
  | halt {s : DurableStore} {job : Option BackgroundCheckpoint} {d : Disk} (call : Call)
      (h : d ∈ (call.prog s).during) : Step tears (.up s job) (.halted call) (.down d)
  | close {s : DurableStore} {job : Option BackgroundCheckpoint} :
      Step tears (.up s job) .closed (.down s.disk)
  | begin {s : DurableStore} (order : HashOrder) (job : BackgroundCheckpoint)
      (h : (beginBackgroundCheckpoint order s).result = .ok job) :
      Step tears (.up s none) .began (.up (beginBackgroundCheckpoint order s).state (some job))
  | run {s : DurableStore} {job : BackgroundCheckpoint} (job' : BackgroundCheckpoint)
      (h : (runStep job s).result = .ok job') :
      Step tears (.up s (some job)) .ran (.up (runStep job s).state (some job'))
  | complete {s : DurableStore} {job : BackgroundCheckpoint} (hp : job.phase = .sealed)
      (h : (completeBackgroundCheckpoint job s).result = .ok ()) :
      Step tears (.up s (some job)) .completed (.up (completeBackgroundCheckpoint job s).state none)
  | abort {s : DurableStore} {job : BackgroundCheckpoint} (hp : job.phase = .writing) :
      Step tears (.up s (some job)) .aborted (.up (abortBackgroundCheckpoint s) none)

/-- The runs of a store from an empty directory, all of whose steps are allowed;
the labels are listed newest first. -/
inductive Run (tears : Bool) (allowed : Node → Label → Prop) : List Label → Node → Prop where
  | start : Run tears allowed [] (.down {})
  | step {labels : List Label} {node node' : Node} {label : Label}
      (hrun : Run tears allowed labels node) (hallowed : allowed node label)
      (hstep : Step tears node label node') : Run tears allowed (label :: labels) node'

/-! ## the ledger -/

/-- The batches given to the store, oldest first, and how many of them are known
to be durable.  While the store is down, any number from `durable` up may be
what is left. -/
structure Ledger where
  batches : List Batch := []
  durable : Nat := 0
deriving DecidableEq

/-- What a step does to the ledger.  A call that returns has logged its batches;
one that fails has logged a proper prefix of them; one cut short may have
logged any prefix.  Reopening and power failures settle how many are left. -/
inductive Ledger.Next : Ledger → Label → Ledger → Prop where
  | returned (l : Ledger) (call : Call) :
      Next l (.returned call) ⟨l.batches ++ call.batches,
        if call.durable then (l.batches ++ call.batches).length else l.durable⟩
  | failed (l : Ledger) (call : Call) (count : Nat)
      (h : count < call.batches.length ∨ call.batches = []) :
      Next l (.failed call) ⟨l.batches ++ call.batches.take count, l.durable⟩
  | halted (l : Ledger) (call : Call) :
      Next l (.halted call) ⟨l.batches ++ call.batches, l.durable⟩
  | reopened (l : Ledger) (count : Nat) (h : l.durable ≤ count) (h' : count ≤ l.batches.length) :
      Next l .reopened ⟨l.batches.take count, count⟩
  | lostPower (l : Ledger) (count : Nat) (h : l.durable ≤ count) (h' : count ≤ l.batches.length) :
      Next l .lostPower ⟨l.batches.take count, count⟩
  | haltedOpening (l : Ledger) : Next l .haltedOpening l
  | closed (l : Ledger) : Next l .closed l
  | began (l : Ledger) : Next l .began l
  | ran (l : Ledger) : Next l .ran l
  | completed (l : Ledger) : Next l .completed l
  | aborted (l : Ledger) : Next l .aborted l

/-- The ledgers a run can leave, the labels newest first. -/
inductive Ledger.Runs : List Label → Ledger → Prop where
  | start : Runs [] {}
  | step {labels : List Label} {label : Label} {l l' : Ledger} (hrun : Runs labels l)
      (hnext : l.Next label l') : Runs (label :: labels) l'

/-- The page reads of an open store are those of the batches. -/
def DurableStore.Shows (s : DurableStore) (batches : List Batch) : Prop :=
  ∀ id, Addressable id → (s.readPage id).map (Option.map Page.payload) = .ok (contents batches id)

/-- Opening the disk succeeds and shows the durable batches and some of those
behind them. -/
def Disk.Reopens (d : Disk) (l : Ledger) : Prop :=
  ∀ order, («open» order d).result = .ok () ∧
    ∃ count, l.durable ≤ count ∧ count ≤ l.batches.length ∧
      («open» order d).state.Shows (l.batches.take count)

/-- What the ledger says can be seen at a node: an open store shows its batches,
and a closed one reopens. -/
def Node.Agrees : Node → Ledger → Prop
  | .up s _, l => s.Shows l.batches
  | .down d, l => d.Reopens l

end QuantaDb
