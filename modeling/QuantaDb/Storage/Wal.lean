import QuantaDb.Storage.Page

/-!
# QuantaDb.Storage.Wal

The write-ahead log at the grain of whole records (`wal.rs`).

A segment file is the list of records the last sync made durable, followed by
the records appended since.  A scan of the file ends at the first record that the
reader does not take (`Readable`).  Sealing a file writes a stop marker at its
start, which makes it scan as empty; until the file is synced the marker may be
lost, which is what `stopped` says.  `QuantaDb.Storage.Frame` is the byte-level
counterpart of this module, and `Frame.Represents` ties the two together.

`committedPageImages` is recovery's reading of a log: the records after the
last checkpoint, batch by batch, without the ones no batch commit follows.
`scan` computes the same thing in one left-to-right pass that also tells the
batches apart (`committedPageImages_of_scan`); every argument about what a
log means is made about `scan`.
-/

namespace QuantaDb

/-- `WalKind`. -/
inductive WalKind where
  | pageImage (pageId : PageId) (payload : Bytes)
  | pageAppend (pageId : PageId) (offset : UInt32) (payload : Bytes)
  | batchCommit (pageCount : UInt32)
  | checkpoint
deriving DecidableEq, Repr

structure WalRecord where
  lsn : Nat
  kind : WalKind
deriving DecidableEq, Repr

def walHeaderSize : Nat := 40

/-- Bytes a record of this kind takes in the log, header included. -/
def WalKind.recordLength : WalKind → Nat
  | .pageImage _ payload => walHeaderSize + payload.length
  | .pageAppend _ _ payload => walHeaderSize + (4 + payload.length)
  | .batchCommit _ => walHeaderSize + 4
  | .checkpoint => walHeaderSize

theorem WalKind.recordLength_pos (kind : WalKind) : 0 < kind.recordLength := by
  cases kind <;> simp [WalKind.recordLength, walHeaderSize]

/-- The page ID of a record that has none. -/
def noPageId : Nat := 2 ^ 64 - 1

/-- The kinds of record that `scan_and_repair` reads back: the page ID is not the
one that stands for none, and the framed payload of an append fits a page. -/
def Readable : WalKind → Prop
  | .pageImage pageId _ => pageId.toNat ≠ noPageId
  | .pageAppend pageId _ payload => pageId.toNat ≠ noPageId ∧ 4 + payload.length ≤ maxPagePayload
  | .batchCommit _ => True
  | .checkpoint => True

instance : DecidablePred Readable
  | .pageImage .. => inferInstanceAs (Decidable (_ ≠ _))
  | .pageAppend .. => inferInstanceAs (Decidable (_ ∧ _))
  | .batchCommit _ => inferInstanceAs (Decidable True)
  | .checkpoint => inferInstanceAs (Decidable True)

/-! ## segments -/

/-- A segment file: durable records, records appended since the last sync, and
whether an unsynced stop marker lies at its start. -/
structure SegmentFile where
  synced : List WalRecord := []
  written : List WalRecord := []
  stopped : Bool := false
deriving DecidableEq, Repr

namespace SegmentFile

/-- The records in the file; none behind a stop marker at its start. -/
def stored (file : SegmentFile) : List WalRecord :=
  if file.stopped then [] else file.synced ++ file.written

/-- What a scan of the file finds: the records up to one that cannot be read. -/
def records (file : SegmentFile) : List WalRecord :=
  file.stored.takeWhile (Readable ·.kind)

def append (file : SegmentFile) (record : WalRecord) : SegmentFile :=
  { file with written := file.written ++ [record] }

/-- The stop marker of `seal_file`. -/
def stop (file : SegmentFile) : SegmentFile := { file with stopped := true }

/-- `sync_data`. -/
def sync (file : SegmentFile) : SegmentFile := { synced := file.stored }

/-- The end of `scan_and_repair`: a stop marker behind what was read, and a sync. -/
def repair (file : SegmentFile) : SegmentFile := { synced := file.records }

/-- A file of readable records is found as a whole. -/
theorem records_of_readable {file : SegmentFile} (h : ∀ r ∈ file.stored, Readable r.kind) :
    file.records = file.stored := by
  rw [records, List.takeWhile_eq_self_iff]
  simpa using h

end SegmentFile

structure Segment where
  file : SegmentFile := {}
  endOffset : Nat := 0
deriving DecidableEq, Repr

/-- The offset a scan of the file ends at. -/
def SegmentFile.length (file : SegmentFile) : Nat :=
  (file.records.map fun record => record.kind.recordLength).sum

theorem SegmentFile.length_eq_zero {file : SegmentFile} (h : file.length = 0) :
    file.records = [] := by
  cases hr : file.records with
  | nil => rfl
  | cons record rest =>
    have := record.kind.recordLength_pos
    simp [SegmentFile.length, hr] at h
    omega

/-- The two segment files. -/
abbrev segmentA : Fin 2 := 0

abbrev segmentB : Fin 2 := 1

structure Wal where
  segments : Fin 2 → Segment
  active : Fin 2
  retired : Option (Fin 2)
  records : List WalRecord
  nextLsn : Nat

namespace Wal

/-- The segment that is not active. -/
def spare (wal : Wal) : Fin 2 := 1 - wal.active

def bothSegmentsLive (wal : Wal) : Bool :=
  0 < (wal.segments 0).endOffset && 0 < (wal.segments 1).endOffset

def canRotate (wal : Wal) : Bool :=
  wal.retired.isNone && (wal.segments wal.spare).endOffset == 0

/-- Change one segment and leave the other. -/
def onSegment (wal : Wal) (i : Fin 2) (f : Segment → Segment) : Wal :=
  { wal with segments := Function.update wal.segments i (f (wal.segments i)) }

@[simp] theorem onSegment_active (wal : Wal) (i : Fin 2) (f : Segment → Segment) :
    (wal.onSegment i f).active = wal.active := rfl

@[simp] theorem onSegment_retired (wal : Wal) (i : Fin 2) (f : Segment → Segment) :
    (wal.onSegment i f).retired = wal.retired := rfl

@[simp] theorem onSegment_records (wal : Wal) (i : Fin 2) (f : Segment → Segment) :
    (wal.onSegment i f).records = wal.records := rfl

@[simp] theorem onSegment_nextLsn (wal : Wal) (i : Fin 2) (f : Segment → Segment) :
    (wal.onSegment i f).nextLsn = wal.nextLsn := rfl

@[simp] theorem onSegment_segments_self (wal : Wal) (i : Fin 2) (f : Segment → Segment) :
    (wal.onSegment i f).segments i = f (wal.segments i) := by
  simp [onSegment]

theorem onSegment_segments_of_ne (wal : Wal) {i j : Fin 2} (f : Segment → Segment) (h : j ≠ i) :
    (wal.onSegment i f).segments j = wal.segments j := by
  simp [onSegment, h]

theorem spare_ne_active (wal : Wal) : wal.spare ≠ wal.active := by
  unfold spare
  generalize wal.active = i
  revert i; decide

theorem eq_active_or_spare (wal : Wal) (i : Fin 2) : i = wal.active ∨ i = wal.spare := by
  unfold spare
  generalize wal.active = j
  revert i j; decide

/-- The seam of two segments in `Wal::open`: a later segment that does not continue
the earlier one is garbage. -/
def seam (earlier later : List WalRecord) (first : WalRecord) (laterIndex : Fin 2) :
    List WalRecord × Fin 2 × Option (Fin 2) :=
  if earlier.getLast?.all fun last => decide (last.lsn < first.lsn) then
    (earlier ++ later, laterIndex, none)
  else (earlier, 1 - laterIndex, some laterIndex)

/-- The records of the two scanned segments ordered by first LSN, the segment to
append to, and the one to seal. -/
def join (recordsA recordsB : List WalRecord) : List WalRecord × Fin 2 × Option (Fin 2) :=
  match recordsA, recordsB with
  | recordsA, [] => (recordsA, 0, none)
  | [], recordsB => (recordsB, 1, none)
  | a :: restA, b :: restB =>
    if a.lsn < b.lsn then seam (a :: restA) (b :: restB) b 1
    else seam (b :: restB) (a :: restA) a 0

/-- `Wal::open` up to the seal of a garbage segment, which the second component
names. -/
def attach (files : Fin 2 → SegmentFile) : Wal × Option (Fin 2) :=
  let (records, active, garbage) := join (files 0).records (files 1).records
  let nextLsn := match records.getLast? with
    | none => 1
    | some record => min (record.lsn + 1) (2 ^ 64 - 1)
  ({ segments := fun i => ⟨files i, (files i).length⟩, active, retired := none, records, nextLsn },
    garbage)

/-- `trim_records_to_last_checkpoint`: what follows the newest checkpoint. -/
def afterLastCheckpoint (records : List WalRecord) : List WalRecord :=
  (records.reverse.takeWhile fun record => decide (record.kind ≠ .checkpoint)).reverse

end Wal

/-! ## the committed writes of a log -/

/-- The loop of `committed_page_images` over the records after the last
checkpoint. -/
def commitLoop (pending committed : List CommittedWrite) :
    List WalRecord → Except StorageError (List CommittedWrite)
  | [] => .ok committed
  | record :: rest =>
    match record.kind with
    | .pageImage pageId payload =>
      commitLoop (pending ++ [⟨record.lsn, pageId, payload, none⟩]) committed rest
    | .pageAppend pageId offset payload =>
      commitLoop (pending ++ [⟨record.lsn, pageId, payload, some offset⟩]) committed rest
    | .batchCommit pageCount =>
      if pending.length < pageCount.toNat then
        .error (.corruptWal 0
          s!"batch commit declares {pageCount} pages but only {pending.length} are pending")
      else
        -- older pending images came from an interrupted batch and are dropped
        commitLoop [] (committed ++ pending.drop (pending.length - pageCount.toNat)) rest
    | .checkpoint => .error (.corruptWal 0 "unexpected checkpoint after recovery boundary")

/-- `committed_page_images`. -/
def committedPageImages (records : List WalRecord) : Except StorageError (List CommittedWrite) :=
  commitLoop [] [] (Wal.afterLastCheckpoint records)

/-- The state of a pass over a log: page records not yet committed, and the
batches committed since the last checkpoint. -/
structure Scan where
  pending : List CommittedWrite := []
  batches : List (List CommittedWrite) := []
deriving DecidableEq, Repr

/-- One record of the pass; a batch commit that counts too far stops it. -/
def Scan.step (st : Scan) (record : WalRecord) : Option Scan :=
  match record.kind with
  | .pageImage pageId payload =>
    some { st with pending := st.pending ++ [⟨record.lsn, pageId, payload, none⟩] }
  | .pageAppend pageId offset payload =>
    some { st with pending := st.pending ++ [⟨record.lsn, pageId, payload, some offset⟩] }
  | .batchCommit pageCount =>
    if st.pending.length < pageCount.toNat then none
    else some ⟨[], st.batches ++ [st.pending.drop (st.pending.length - pageCount.toNat)]⟩
  | .checkpoint => some {}

/-- A pass over a run of records. -/
def Scan.run (st : Scan) (records : List WalRecord) : Option Scan := records.foldlM Scan.step st

/-- A pass over a whole log. -/
def scan (records : List WalRecord) : Option Scan := Scan.run {} records

@[simp] theorem Scan.run_nil (st : Scan) : st.run [] = some st := rfl

theorem Scan.run_cons (st : Scan) (record : WalRecord) (rest : List WalRecord) :
    st.run (record :: rest) = (st.step record).bind fun st' => st'.run rest := rfl

theorem Scan.run_append (st : Scan) (xs ys : List WalRecord) :
    st.run (xs ++ ys) = (st.run xs).bind fun st' => st'.run ys := by
  simp [Scan.run, List.foldlM_append]

variable {st st' : Scan}

/-- Without a checkpoint the pass only adds batches. -/
theorem Scan.batches_prefix_of_step {record : WalRecord} (h : st.step record = some st')
    (hc : record.kind ≠ .checkpoint) :
    st.batches <+: st'.batches := by
  unfold Scan.step at h
  split at h
  · cases h; exact List.prefix_refl _
  · cases h; exact List.prefix_refl _
  · split at h
    · cases h
    · cases h; exact List.prefix_append _ _
  · contradiction

variable {records : List WalRecord}

theorem Scan.batches_prefix_of_run (h : st.run records = some st')
    (hc : ∀ r ∈ records, r.kind ≠ .checkpoint) :
    st.batches <+: st'.batches := by
  induction records generalizing st with
  | nil => cases h; exact List.prefix_refl _
  | cons record rest ih =>
    rw [Scan.run_cons] at h
    cases hs : st.step record with
    | none => rw [hs] at h; cases h
    | some st₁ =>
      rw [hs] at h
      exact (Scan.batches_prefix_of_step hs (hc record List.mem_cons_self)).trans
        (ih h fun r hr => hc r (List.mem_cons_of_mem record hr))

/-- A pass that reaches the end of a log passes through every cut of it. -/
theorem Scan.run_prefix {xs ys : List WalRecord} (h : st.run (xs ++ ys) = some st') :
    ∃ st₁, st.run xs = some st₁ ∧ st₁.run ys = some st' := by
  rw [Scan.run_append] at h
  cases hx : st.run xs with
  | none => rw [hx] at h; cases h
  | some st₁ => rw [hx] at h; exact ⟨st₁, rfl, h⟩

/-- The writes of a pass carry LSNs of the records it read. -/
theorem Scan.mem_lsn_of_run {S : Nat → Prop} (h : st.run records = some st')
    (hst : ∀ w ∈ st.pending ++ st.batches.flatten, S w.lsn) (hr : ∀ r ∈ records, S r.lsn) :
    ∀ w ∈ st'.pending ++ st'.batches.flatten, S w.lsn := by
  induction records generalizing st with
  | nil => cases h; exact hst
  | cons record rest ih =>
    rw [Scan.run_cons] at h
    cases hs : st.step record with
    | none => rw [hs] at h; cases h
    | some st₁ =>
      rw [hs] at h
      refine ih h (fun w hw => ?_) fun r hm => hr r (List.mem_cons_of_mem record hm)
      have hrec := hr record List.mem_cons_self
      obtain ⟨lsn, kind⟩ := record
      simp only [List.mem_append] at hst
      cases kind with
      | batchCommit pageCount =>
        simp only [Scan.step] at hs
        split at hs
        · cases hs
        · cases hs
          simp only [List.nil_append, List.flatten_append, List.flatten_singleton,
            List.mem_append] at hw
          rcases hw with hw | hw
          · exact hst w (Or.inr hw)
          · exact hst w (Or.inl (List.mem_of_mem_drop hw))
      | checkpoint => cases hs; simp at hw
      | _ =>
        cases hs
        simp only [List.mem_append, List.mem_singleton] at hw
        rcases hw with (hw | rfl) | hw
        · exact hst w (Or.inl hw)
        · exact hrec
        · exact hst w (Or.inr hw)

/-- The loop of the source and the pass agree where there is no checkpoint. -/
theorem commitLoop_of_run (h : st.run records = some st')
    (hc : ∀ r ∈ records, r.kind ≠ .checkpoint) :
    commitLoop st.pending st.batches.flatten records = .ok st'.batches.flatten := by
  induction records generalizing st with
  | nil => cases h; rfl
  | cons record rest ih =>
    rw [Scan.run_cons] at h
    have hrest : ∀ r ∈ rest, r.kind ≠ .checkpoint := fun r hr =>
      hc r (List.mem_cons_of_mem record hr)
    cases hs : st.step record with
    | none => rw [hs] at h; cases h
    | some st₁ =>
      rw [hs] at h
      have hloop := ih h hrest
      obtain ⟨lsn, kind⟩ := record
      cases kind with
      | pageImage pageId payload => cases hs; exact hloop
      | pageAppend pageId offset payload => cases hs; exact hloop
      | batchCommit pageCount =>
        simp only [Scan.step] at hs
        split at hs
        · cases hs
        · next hlen =>
          cases hs
          rw [List.flatten_append, List.flatten_singleton] at hloop
          simp only [commitLoop, if_neg hlen]
          exact hloop
      | checkpoint => exact absurd rfl (hc _ List.mem_cons_self)

/-- A log is its part up to the last checkpoint and its part after it. -/
theorem Wal.afterLastCheckpoint_split (records : List WalRecord) :
    (∀ r ∈ Wal.afterLastCheckpoint records, r.kind ≠ .checkpoint) ∧
      (Wal.afterLastCheckpoint records = records ∨
        ∃ before lsn, records = before ++ ⟨lsn, .checkpoint⟩ :: Wal.afterLastCheckpoint
        records) := by
  have hsplit := List.takeWhile_append_dropWhile
    (p := fun record : WalRecord => decide (record.kind ≠ .checkpoint)) (l := records.reverse)
  constructor
  · intro r hr
    have hr' : r ∈ records.reverse.takeWhile fun record => decide (record.kind ≠ .checkpoint) := by
      simpa [Wal.afterLastCheckpoint] using hr
    simpa using List.mem_takeWhile_imp hr'
  · cases hd : records.reverse.dropWhile fun record => decide (record.kind ≠ .checkpoint) with
    | nil =>
      left
      rw [hd, List.append_nil] at hsplit
      rw [Wal.afterLastCheckpoint, hsplit, List.reverse_reverse]
    | cons record rest =>
      right
      have hk : record.kind = .checkpoint := by
        have := List.head?_dropWhile_not
          (fun record : WalRecord => decide (record.kind ≠ .checkpoint)) records.reverse
        rw [hd] at this
        simpa using this
      refine ⟨rest.reverse, record.lsn, ?_⟩
      rw [hd] at hsplit
      have hrev := congrArg List.reverse hsplit
      rw [List.reverse_append, List.reverse_reverse, List.reverse_cons, List.append_assoc] at hrev
      have hrec : record = ⟨record.lsn, .checkpoint⟩ := by rw [← hk]
      rw [← hrec]
      exact hrev.symm

/-- A checkpoint makes the pass forget everything before it. -/
theorem scan_checkpoint_append {before after : List WalRecord} {lsn : Nat}
    (h : scan (before ++ ⟨lsn, .checkpoint⟩ :: after) = some st) : scan after = some st := by
  obtain ⟨st₁, _, h⟩ := Scan.run_prefix h
  exact h

/-- **Recovery's reading of a log**: the writes of the committed batches. -/
theorem committedPageImages_of_scan (h : scan records = some st) :
    committedPageImages records = .ok st.batches.flatten := by
  obtain ⟨hno, hsplit⟩ := Wal.afterLastCheckpoint_split records
  have hafter : scan (Wal.afterLastCheckpoint records) = some st := by
    rcases hsplit with heq | ⟨before, lsn, heq⟩
    · rw [heq]; exact h
    · rw [heq] at h; exact scan_checkpoint_append h
  exact commitLoop_of_run hafter hno

end QuantaDb
