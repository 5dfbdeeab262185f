import QuantaDb.Lib.Crash
import QuantaDb.Storage.Wal

/-!
# QuantaDb.Storage.Store

The durable page store (`store.rs`): write batches, append batches, the paced
flusher, both kinds of checkpoint, and recovery.

Every operation is a `Crash.Prog` over the store: its I/O calls are the points
where the power can fail, its state changes survive an error the way they do
behind `&mut self`.  Two of the source's maps are walked while an operation
runs (`grown`, `open_pages`) and one while a checkpoint begins (`dirty`); the
order of such a walk is the hasher's, so each operation takes a `HashOrder`.
-/

namespace QuantaDb

open Crash Prog

/-- The order in which a hash table is walked: some permutation of its keys. -/
structure HashOrder where
  walk : List PageId → List PageId
  perm : ∀ ids, (walk ids).Perm ids

def HashOrder.sorted : HashOrder := ⟨id, fun _ => List.Perm.refl _⟩

/-! ## page IDs -/

/-- `AllocatorState`. -/
structure PageAllocator where
  nextPageId : Nat := 0
  freePages : Std.TreeSet PageId := ∅

namespace PageAllocator

/-- The loop of `reserve` over the free pool. -/
def popFree (free : Std.TreeSet PageId) : Nat → List PageId × Std.TreeSet PageId
  | 0 => ([], free)
  | count + 1 =>
    match free.toList.head? with
    | none => ([], free)
    | some id =>
      let (ids, rest) := popFree (free.erase id) count
      (id :: ids, rest)

/-- `PageAllocator::reserve`: pooled pages first, then fresh ones. -/
def reserve (alloc : PageAllocator) (count : Nat) :
    Except StorageError (List PageId) × PageAllocator :=
  let (reused, free) := popFree alloc.freePages count
  let end_ := alloc.nextPageId + (count - reused.length)
  if 2 ^ 64 ≤ end_ then
    (.error (.configuration "page ID space exhausted"), { alloc with freePages := free })
  else
    (.ok (reused ++ (List.range' alloc.nextPageId (count - reused.length)).map UInt64.ofNat),
      ⟨end_, free⟩)

/-- `PageAllocator::release`. -/
def release (alloc : PageAllocator) (pages : List PageId) : PageAllocator :=
  pages.foldl (fun alloc id =>
    if id.toNat < alloc.nextPageId then { alloc with freePages := alloc.freePages.insert id }
    else alloc) alloc

/-- `PageAllocator::note_written`. -/
def noteWritten (alloc : PageAllocator) (id : PageId) : PageAllocator :=
  { alloc with nextPageId := max alloc.nextPageId (min (id.toNat + 1) (2 ^ 64 - 1)) }

end PageAllocator

/-! ## the store -/

/-- The files under a store's directory. -/
structure Disk where
  data : DataFile := {}
  segments : Fin 2 → SegmentFile := fun _ => {}

/-- `DurableStore`. -/
structure DurableStore where
  data : DataFile
  wal : Wal
  dirty : Std.TreeMap PageId Page := ∅
  flushed : Std.TreeMap PageId Nat := ∅
  flushQueue : List PageId := []
  allocator : PageAllocator := {}
  openPages : Std.TreeSet PageId := ∅
  checkpointInFlight : Bool := false
  poisoned : Bool := false

def DurableStore.disk (s : DurableStore) : Disk := ⟨s.data, fun i => (s.wal.segments i).file⟩

abbrev StoreM := Prog Disk DurableStore StorageError

namespace DurableStore

/-- Run an operation and poison the store if it fails. -/
def poisonOnError (m : StoreM α) : StoreM α := fun s =>
  match (m s).result with
  | .ok _ => m s
  | .error _ => { m s with state := { (m s).state with poisoned := true } }

def refuseIfPoisoned : StoreM Unit := do
  let poisoned ← read (·.poisoned)
  when poisoned (fail .poisoned)

/-! ### log and data file calls -/

def onWal (f : Wal → Wal) (s : DurableStore) : DurableStore := { s with wal := f s.wal }

/-- `Wal::append`, with `Segment::append_record` as one write. -/
def append (kind : WalKind) : StoreM Nat := do
  let wal ← read (·.wal)
  let offset := (wal.segments wal.active).endOffset
  if 2 ^ 64 ≤ wal.nextLsn + 1 then
    fail (.corruptWal offset "LSN space exhausted")
  else do
    update (onWal fun w => { w with nextLsn := w.nextLsn + 1 })
    if 2 ^ 32 ≤ kind.recordLength then
      fail (.corruptWal offset "record is too large")
    else if 2 ^ 64 ≤ offset + kind.recordLength then
      fail (.corruptWal offset "log offset overflow")
    else do
      issue disk (onWal fun w => w.onSegment w.active fun seg =>
        ⟨seg.file.append ⟨wal.nextLsn, kind⟩, seg.endOffset + kind.recordLength⟩)
      update (onWal fun w => { w with records := w.records ++ [⟨wal.nextLsn, kind⟩] })
      pure wal.nextLsn

/-- `Wal::append_page`. -/
def appendPage (pageId : PageId) (payload : Bytes) : StoreM Nat :=
  if maxPagePayload < payload.length then fail (.pageTooLarge payload.length maxPagePayload)
  else append (.pageImage pageId payload)

/-- `Wal::append_page_tail`. -/
def appendPageTail (pageId : PageId) (offset : UInt32) (payload : Bytes) : StoreM Nat :=
  if maxPagePayload < payload.length then fail (.pageTooLarge payload.length maxPagePayload)
  else append (.pageAppend pageId offset payload)

/-- `Wal::append_checkpoint`. -/
def appendCheckpoint : StoreM Nat := append .checkpoint

/-- `Wal::append_batch_commit`. -/
def appendBatchCommit (pageCount : Nat) : StoreM Nat := do
  let wal ← read (·.wal)
  let offset := (wal.segments wal.active).endOffset
  if pageCount = 0 then fail (.corruptWal offset "batch commit cannot be empty")
  else if 2 ^ 32 ≤ pageCount then fail (.corruptWal offset "batch page count exceeds u32")
  else append (.batchCommit (UInt32.ofNat pageCount))

/-- `Wal::sync`: only the active segment. -/
def syncWal : StoreM Unit :=
  issue disk (onWal fun w => w.onSegment w.active fun seg => { seg with file := seg.file.sync })

/-- `seal_file`: a stop marker at the start of the file, then a sync. -/
def sealFile (i : Fin 2) : StoreM Unit := do
  issue disk (onWal fun w => w.onSegment i fun seg => { seg with file := seg.file.stop })
  issue disk (onWal fun w => w.onSegment i fun seg => { seg with file := seg.file.sync })

/-- `Segment::seal_and_sync`. -/
def sealAndSync (i : Fin 2) : StoreM Unit := do
  sealFile i
  update (onWal fun w => w.onSegment i fun seg => { seg with endOffset := 0 })

/-- One turn of the loop in `Wal::reset_after_checkpoint`. -/
def resetSegment (i : Fin 2) : StoreM Unit := do
  let wal ← read (·.wal)
  when (0 < (wal.segments i).endOffset) (sealAndSync i)

/-- `Wal::reset_after_checkpoint`. -/
def resetAfterCheckpoint : StoreM Unit := do
  resetSegment segmentA
  resetSegment segmentB
  update (onWal fun w => { w with retired := none, records := [] })

/-- `Wal::rotate`: the boundary LSN of the retired segment. -/
def rotate : StoreM Nat := do
  let wal ← read (·.wal)
  if wal.canRotate then do
    update (onWal fun w => { w with retired := some w.active, active := w.spare })
    pure wal.nextLsn
  else fail (.corruptWal 0 "log rotation needs an empty spare segment")

/-- `Wal::finish_recycle`. -/
def finishRecycle (boundaryLsn : Nat) : StoreM Unit := do
  let wal ← read (·.wal)
  match wal.retired with
  | none => fail (.corruptWal 0 "no retired segment to recycle")
  | some retired =>
    update (onWal fun w => { w.onSegment retired (fun seg => { seg with endOffset := 0 }) with
      retired := none
      records := w.records.filter fun record => decide (boundaryLsn ≤ record.lsn) })

/-- `DataFile::write`. -/
def writeData (page : Page) : StoreM Unit := do
  let _ ← attempt fun _ => writeOffset page.id
  issue disk fun s => { s with data := s.data.write page }

/-- `DataFile::sync`. -/
def syncData : StoreM Unit := issue disk fun s => { s with data := s.data.sync }

/-! ### reading -/

/-- `read_page`: the dirty table first, then the data file. -/
def readPage (s : DurableStore) (id : PageId) : Except StorageError (Option Page) :=
  match s.dirty[id]? with
  | some page => .ok (some page)
  | none => s.data.read id

/-! ### batches -/

/-- One page of a logged batch enters the dirty table. -/
def publishWrite (write : PageWrite) (lsn : Nat) : StoreM Unit := do
  let page ← attempt fun _ => Page.withLsn write.pageId lsn write.payload
  update fun s => { s with
    dirty := s.dirty.insert write.pageId page
    flushQueue := s.flushQueue ++ [write.pageId]
    allocator := s.allocator.noteWritten write.pageId }

/-- `write_pages_inner`. -/
def writePagesInner (writes : List PageWrite) (durable : Bool) : StoreM (List Nat) := do
  let lsns ← forEach writes fun write => appendPage write.pageId write.payload
  let _ ← appendBatchCommit writes.length
  when durable syncWal
  let _ ← forEach (writes.zip lsns) fun (write, lsn) => publishWrite write lsn
  pure lsns

/-- `write_pages_with`. -/
def writePagesWith (writes : List PageWrite) (durable : Bool) : StoreM (List Nat) := do
  refuseIfPoisoned
  let _ ← forEach writes fun write => attempt fun _ => Page.new write.pageId write.payload
  if writes = [] then pure []
  else poisonOnError (writePagesInner writes durable)

/-- What the appends of a batch to a page start from: the page as grown so far,
else as the dirty table has it, else as the data file has it. -/
def basePayload (s : DurableStore) (grown : Std.TreeMap PageId Bytes) (id : PageId) :
    Except StorageError Bytes :=
  match grown[id]? with
  | some payload => .ok payload
  | none =>
    match s.dirty[id]? with
    | some page => .ok page.payload
    | none => (s.data.read id).map fun page => (page.map Page.payload).getD []

/-- The images after one more append of the batch. -/
def growOne (s : DurableStore) (grown : Std.TreeMap PageId Bytes) (append : PageAppend) :
    Except StorageError (Std.TreeMap PageId Bytes) :=
  match s.basePayload grown append.pageId with
  | .error e => .error e
  | .ok base =>
    let end_ := append.offset.toNat + append.payload.length
    if maxPagePayload < end_ then .error (.pageTooLarge end_ maxPagePayload)
    else .ok (grown.insert append.pageId (splice base append.offset.toNat append.payload))

/-- The images a whole append batch would leave. -/
def grow (appends : List PageAppend) (s : DurableStore) :
    Except StorageError (Std.TreeMap PageId Bytes) :=
  appends.foldlM (growOne s) ∅

/-- The LSN of the last append of a batch to a page. -/
def newest (appends : List PageAppend) (lsns : List Nat) : Std.TreeMap PageId Nat :=
  (appends.zip lsns).foldl (fun m (append, lsn) => m.insert append.pageId lsn) ∅

/-- A sealed page is queued for the data file, any other stays open. -/
def queueIfSealed (appends : List PageAppend) (id : PageId) (s : DurableStore) : DurableStore :=
  if appends.any fun append => append.sealed && append.pageId == id then
    { s with openPages := s.openPages.erase id, flushQueue := s.flushQueue ++ [id] }
  else { s with openPages := s.openPages.insert id }

/-- One grown page enters the dirty table. -/
def publishAppend (appends : List PageAppend) (grown : Std.TreeMap PageId Bytes)
    (newest : Std.TreeMap PageId Nat) (id : PageId) : StoreM Unit := do
  let page ← attempt fun _ => Page.withLsn id (newest.getD id 0) (grown.getD id [])
  update fun s => { s with dirty := s.dirty.insert id page }
  update (queueIfSealed appends id)
  update fun s => { s with allocator := s.allocator.noteWritten id }

/-- `append_pages_inner`. -/
def appendPagesInner (order : HashOrder) (appends : List PageAppend) (durable : Bool) :
    StoreM (List Nat) := do
  let grown ← attempt (grow appends)
  let lsns ← forEach appends fun append => appendPageTail append.pageId append.offset append.payload
  let _ ← appendBatchCommit appends.length
  when durable syncWal
  let _ ← forEach (order.walk grown.keys) (publishAppend appends grown (newest appends lsns))
  pure lsns

/-- `append_pages`. -/
def appendPages (order : HashOrder) (appends : List PageAppend) : StoreM (List Nat) :=
  if appends = [] then pure []
  else do
    refuseIfPoisoned
    poisonOnError (appendPagesInner order appends true)

/-- `apply_batch_inner`. -/
def applyBatchInner (order : HashOrder) (writes : List PageWrite) (appends : List PageAppend)
    (durable : Bool) : StoreM (List Nat × List Nat) := do
  let writeLsns ← (if writes = [] then pure [] else writePagesInner writes false)
  let appendLsns ← (if appends = [] then pure [] else appendPagesInner order appends false)
  when durable syncWal
  pure (writeLsns, appendLsns)

/-- `apply_batch`. -/
def applyBatch (order : HashOrder) (writes : List PageWrite) (appends : List PageAppend)
    (durable : Bool) : StoreM (List Nat × List Nat) := do
  refuseIfPoisoned
  poisonOnError (applyBatchInner order writes appends durable)

/-! ### flushing and checkpoints -/

/-- The loop of `flush_some_dirty` over the queue: the pages to write, and what
is left of the queue. -/
def collectPending (dirty : Std.TreeMap PageId Page) (flushed : Std.TreeMap PageId Nat) :
    Nat → List PageId → List Page × List PageId
  | 0, queue => ([], queue)
  | _ + 1, [] => ([], [])
  | budget + 1, id :: queue =>
    match dirty[id]? with
    | none => collectPending dirty flushed (budget + 1) queue
    | some page =>
      if flushed[id]? = some page.lsn then collectPending dirty flushed (budget + 1) queue
      else
        let (pages, rest) := collectPending dirty flushed budget queue
        (page :: pages, rest)

/-- One page of a flush. -/
def flushPage (page : Page) : StoreM Unit := do
  writeData page
  update fun s => { s with flushed := s.flushed.insert page.id page.lsn }

/-- `flush_some_dirty`. -/
def flushSomeDirty (budget : Nat) : StoreM Nat := do
  let inFlight ← read (·.checkpointInFlight)
  if inFlight then
    -- paced writes could race the checkpointer's page writes
    pure 0
  else do
    let (pending, rest) ← read fun s => collectPending s.dirty s.flushed budget s.flushQueue
    update fun s => { s with flushQueue := rest }
    let _ ← forEach pending flushPage
    pure pending.length

def usizeMax : Nat := 2 ^ 64 - 1

/-- `while self.flush_some_dirty(usize::MAX)? > 0 {}`; each turn but the last
shortens the queue, so a turn for each queued page and one more is enough. -/
def flushLoop : Nat → StoreM Unit
  | 0 => pure ()
  | turns + 1 => do
      let count ← flushSomeDirty usizeMax
      when (0 < count) (flushLoop turns)

/-- `checkpoint_inner`. -/
def checkpointInner (order : HashOrder) : StoreM Nat := do
  update fun s => { s with
    flushQueue := s.flushQueue ++ order.walk s.openPages.toList
    openPages := ∅ }
  let turns ← read fun s => s.flushQueue.length + 1
  flushLoop turns
  syncData
  let lsn ← appendCheckpoint
  syncWal
  resetAfterCheckpoint
  update fun s => { s with
    dirty := s.dirty.filter fun id page => decide (s.flushed[id]? ≠ some page.lsn)
    flushed := ∅ }
  pure lsn

/-- `checkpoint`. -/
def checkpoint (order : HashOrder) : StoreM Nat := do
  refuseIfPoisoned
  let inFlight ← read (·.checkpointInFlight)
  if inFlight then
    fail (.configuration
      "cannot run a full checkpoint while a background checkpoint is in flight")
  else poisonOnError (checkpointInner order)

/-! ### background checkpoints -/

/-- How far `BackgroundCheckpoint::run` has come. -/
inductive RunPhase where
  | writing
  | dataSynced
  | stopped
  | sealed
deriving DecidableEq, Repr

end DurableStore

/-- `BackgroundCheckpoint` with the state of its `run`: the part of the manifest
not read yet, the pages of the current chunk not written yet, and what was
written. -/
structure BackgroundCheckpoint where
  manifest : List (PageId × Nat)
  retired : Fin 2
  boundaryLsn : Nat
  chunk : List Page := []
  written : List (PageId × Nat) := []
  phase : DurableStore.RunPhase := .writing

namespace DurableStore

def chunkSize : Nat := 64

/-- The pages of a chunk of the manifest that still carry the LSN they had when
the log was rotated. -/
def readChunk (dirty : Std.TreeMap PageId Page) (entries : List (PageId × Nat)) : List Page :=
  entries.filterMap fun (id, lsn) => dirty[id]?.filter fun page => page.lsn == lsn

/-- One step of `BackgroundCheckpoint::run`, which holds no store lock: a read
of the dirty table, a page write, a sync, or one of the two calls of
`seal_file`. -/
def runStep (job : BackgroundCheckpoint) : StoreM BackgroundCheckpoint :=
  match job.phase with
  | .writing =>
    match job.chunk, job.manifest with
    | page :: rest, _ => do
        writeData page
        pure { job with chunk := rest, written := job.written ++ [(page.id, page.lsn)] }
    | [], [] => do
        syncData
        pure { job with phase := .dataSynced }
    | [], manifest => do
        let dirty ← read (·.dirty)
        pure { job with
          manifest := manifest.drop chunkSize
          chunk := readChunk dirty (manifest.take chunkSize) }
  | .dataSynced => do
      issue disk (onWal fun w => w.onSegment job.retired fun seg =>
        { seg with file := seg.file.stop })
      pure { job with phase := .stopped }
  | .stopped => do
      issue disk (onWal fun w => w.onSegment job.retired fun seg =>
        { seg with file := seg.file.sync })
      pure { job with phase := .sealed }
  | .sealed => pure job

/-- `begin_background_checkpoint`. -/
def beginBackgroundCheckpoint (order : HashOrder) : StoreM BackgroundCheckpoint := do
  refuseIfPoisoned
  let inFlight ← read (·.checkpointInFlight)
  if inFlight then
    fail (.configuration "a background checkpoint is already in flight")
  else do
    let boundaryLsn ← rotate
    let manifest ← read fun s =>
      (order.walk s.dirty.keys).filterMap fun id => s.dirty[id]?.map fun page => (id, page.lsn)
    update fun s => { s with checkpointInFlight := true }
    let retired ← read (·.wal.retired)
    match retired with
    | none => fail (.corruptWal 0 "no retired segment to recycle")
    | some retired => pure { manifest, retired, boundaryLsn }

/-- One entry of the list of written pages leaves the tables, if the page still
carries the LSN written. -/
def forgetWritten (s : DurableStore) (entry : PageId × Nat) : DurableStore :=
  { s with
    dirty :=
      if s.dirty[entry.1]?.any fun page => page.lsn == entry.2 then s.dirty.erase entry.1
      else s.dirty
    flushed :=
      if s.flushed[entry.1]? = some entry.2 then s.flushed.erase entry.1 else s.flushed }

/-- `complete_background_checkpoint_inner`. -/
def completeBackgroundCheckpointInner (job : BackgroundCheckpoint) : StoreM Unit := do
  finishRecycle job.boundaryLsn
  update fun s => job.written.foldl forgetWritten s

/-- `complete_background_checkpoint`. -/
def completeBackgroundCheckpoint (job : BackgroundCheckpoint) : StoreM Unit := fun s =>
  let o := poisonOnError (completeBackgroundCheckpointInner job) s
  { o with state := { o.state with checkpointInFlight := false } }

/-- `abort_background_checkpoint`: the retired segment stays unrecycled. -/
def abortBackgroundCheckpoint (s : DurableStore) : DurableStore :=
  { s with checkpointInFlight := false }

/-! ### opening -/

/-- What `recover` reads of a page: one that does not decode counts as absent. -/
def readForReplay (data : DataFile) (id : PageId) : Except StorageError (Option Page) :=
  match data.read id with
  | .error (.corruptPage _ _) => .ok none
  | other => other

/-- `recover` on one committed write: apply it unless the page carries its LSN
or a later one. -/
def replayWrite (write : CommittedWrite) : StoreM Bool := do
  let current ← attempt fun s => readForReplay s.data write.pageId
  if current.any fun page => decide (write.lsn ≤ page.lsn) then pure false
  else do
    let page ← attempt fun _ =>
      Page.withLsn write.pageId write.lsn (write.apply (current.map Page.payload))
    writeData page
    pure true

/-- `recover`. -/
def recover : StoreM Unit := do
  let records ← attempt fun s => committedPageImages s.wal.records
  let wrote ← forEach records replayWrite
  when (wrote.any id) syncData

/-- `Wal::ensure_next_lsn_after`. -/
def ensureNextLsnAfter (durableLsn : Nat) : StoreM Unit := do
  let wal ← read (·.wal)
  if 2 ^ 64 ≤ durableLsn + 1 then
    fail (.corruptWal (wal.segments wal.active).endOffset "LSN space exhausted")
  else update (onWal fun w => { w with nextLsn := max w.nextLsn (durableLsn + 1) })

/-- `calculate_next_page_id`. -/
def calculateNextPageId (s : DurableStore) : Except StorageError Nat :=
  (committedPageImages s.wal.records).map fun writes =>
    writes.foldl (fun next write => max next (min (write.pageId.toNat + 1) (2 ^ 64 - 1)))
      s.data.pageCount

/-- The end of `scan_and_repair`: what was read is what is durable. -/
def scanAndRepair (i : Fin 2) : StoreM Unit :=
  issue disk (onWal fun w => w.onSegment i fun seg => { seg with file := seg.file.repair })

/-- `Wal::open` scans one file after the other. -/
def repairLog : StoreM Unit := do
  scanAndRepair segmentA
  scanAndRepair segmentB

/-- The end of `Wal::open`: a segment whose records do not continue the other's
is sealed. -/
def sealGarbage (garbage : Option (Fin 2)) : StoreM Unit :=
  match garbage with
  | some i => sealAndSync i
  | none => pure ()

/-- `DurableStore::open` once the files are attached. -/
def openAttached (order : HashOrder) (garbage : Option (Fin 2)) : StoreM Unit := do
  repairLog
  sealGarbage garbage
  recover
  let maximum ← attempt (·.data.maxLsn)
  ensureNextLsnAfter maximum
  let next ← attempt calculateNextPageId
  update fun s => { s with allocator := { s.allocator with nextPageId := next } }
  update (onWal fun w => { w with records := Wal.afterLastCheckpoint w.records })
  let wal ← read (·.wal)
  -- consolidate after a crash mid-rotation so a spare is empty again
  when wal.bothSegmentsLive do
    let _ ← checkpoint order

/-- The store as it stands once its files are open, before recovery. -/
def attach (d : Disk) : DurableStore := { data := d.data, wal := (Wal.attach d.segments).1 }

/-- `DurableStore::open`. -/
def «open» (order : HashOrder) (d : Disk) : Outcome Disk DurableStore StorageError Unit :=
  openAttached order (Wal.attach d.segments).2 (attach d)

end DurableStore

end QuantaDb
