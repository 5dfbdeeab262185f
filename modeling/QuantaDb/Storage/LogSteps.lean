import QuantaDb.Storage.Invariant

/-!
# QuantaDb.Storage.LogSteps

How the log invariant changes under the elementary actions of the store: a
page record, a batch commit, a log sync, a page written to the data file, a
data sync.  Every operation of the store is a sequence of these.
-/

namespace QuantaDb

open Redo

variable {mode : Mode} {H : History} {n : Nat} {b : List CommittedWrite} {s s' : DurableStore}

/-! ## records -/

/-- The kind of the record that logs a write. -/
def CommittedWrite.kind (w : CommittedWrite) : WalKind :=
  match w.appendAt with
  | some offset => .pageAppend w.pageId offset w.payload
  | none => .pageImage w.pageId w.payload

theorem CommittedWrite.kind_ne_checkpoint (w : CommittedWrite) : w.kind ≠ .checkpoint := by
  unfold CommittedWrite.kind
  cases w.appendAt <;> simp

theorem Scan.step_write (st : Scan) (w : CommittedWrite) :
    st.step ⟨w.lsn, w.kind⟩ = some { st with pending := st.pending ++ [w] } := by
  obtain ⟨lsn, id, payload, appendAt⟩ := w
  cases appendAt <;> rfl

theorem scan_concat (records : List WalRecord) (record : WalRecord) :
    scan (records ++ [record]) = (scan records).bind fun st => st.step record := by
  rw [scan, Scan.run_append]
  congr 1
  funext st
  rw [Scan.run_cons]
  cases st.step record <;> rfl

/-- The log after one more record. -/
def Wal.push (wal : Wal) (kind : WalKind) : Wal :=
  { wal.onSegment wal.active fun seg =>
      ⟨seg.file.append ⟨wal.nextLsn, kind⟩, seg.endOffset + kind.recordLength⟩ with
    nextLsn := wal.nextLsn + 1
    records := wal.records ++ [⟨wal.nextLsn, kind⟩] }

namespace DurableStore

/-- The store after one more log record. -/
def push (s : DurableStore) (kind : WalKind) : DurableStore := { s with wal := s.wal.push kind }

/-- The store after a log sync. -/
def synced (s : DurableStore) : DurableStore :=
  onWal (fun w => w.onSegment w.active fun seg => { seg with file := seg.file.sync }) s

@[simp] theorem activeFile_push (s : DurableStore) (kind : WalKind) :
    (s.push kind).activeFile = s.activeFile.append ⟨s.wal.nextLsn, kind⟩ := by
  simp [activeFile, push, Wal.push]

theorem spareSegment_push (s : DurableStore) (kind : WalKind) :
    (s.push kind).wal.segments (s.push kind).wal.spare = s.wal.segments s.wal.spare :=
  Function.update_of_ne s.wal.spare_ne_active _ _

@[simp] theorem spareFile_push (s : DurableStore) (kind : WalKind) :
    (s.push kind).spareFile = s.spareFile :=
  congrArg Segment.file (s.spareSegment_push kind)

@[simp] theorem nextLsn_push (s : DurableStore) (kind : WalKind) :
    (s.push kind).wal.nextLsn = s.wal.nextLsn + 1 := rfl

@[simp] theorem data_push (s : DurableStore) (kind : WalKind) : (s.push kind).data = s.data := rfl

@[simp] theorem activeFile_synced (s : DurableStore) :
    s.synced.activeFile = s.activeFile.sync := by
  simp [activeFile, synced, onWal]

theorem spareSegment_synced (s : DurableStore) :
    s.synced.wal.segments s.synced.wal.spare = s.wal.segments s.wal.spare :=
  Function.update_of_ne s.wal.spare_ne_active _ _

@[simp] theorem spareFile_synced (s : DurableStore) : s.synced.spareFile = s.spareFile :=
  congrArg Segment.file s.spareSegment_synced

@[simp] theorem nextLsn_synced (s : DurableStore) : s.synced.wal.nextLsn = s.wal.nextLsn := rfl

@[simp] theorem data_synced (s : DurableStore) : s.synced.data = s.data := rfl

end DurableStore

/-- The active segment holds a committed change of the page. -/
def DurableStore.Logged (s : DurableStore) (id : PageId) : Prop :=
  ∀ L, Reads (s.activeFile.synced ++ s.activeFile.written) L → onPage id L.flatten ≠ []

/-! ## tails -/

theorem Tail.push {base tail : List WalRecord} {L : History} (h : Tail H n b base tail L)
    (w : CommittedWrite) : Tail H n (b ++ [w]) base (tail ++ [⟨w.lsn, w.kind⟩]) L := by
  obtain ⟨pending, hall, hb⟩ := h.all
  refine ⟨h.reads, ⟨pending ++ [w], ?_, ?_⟩, h.sub⟩
  · rw [← List.append_assoc, scan_concat, hall, Option.bind_some, Scan.step_write]
  · obtain ⟨front, rfl⟩ := hb
    exact ⟨front, by simp⟩

theorem Tail.commit {base tail : List WalRecord} {L : History} (h : Tail H n b base tail L)
    (hn : n ≤ H.length) (hb : b.length < 2 ^ 32) (lsn : Nat) :
    Tail (H ++ [b]) n [] base (tail ++ [⟨lsn, .batchCommit (UInt32.ofNat b.length)⟩]) L := by
  obtain ⟨pending, hall, front, rfl⟩ := h.all
  have hcount : (UInt32.ofNat b.length).toNat = b.length := by
    rw [UInt32.toNat_ofNat']; exact Nat.mod_eq_of_lt hb
  refine ⟨h.reads, ⟨[], ?_, List.nil_suffix⟩, ?_⟩
  · rw [← List.append_assoc, scan_concat, hall, Option.bind_some]
    have hlen : ¬ (front ++ b).length < b.length := by simp
    have hdrop : (front ++ b).drop ((front ++ b).length - b.length) = b := by
      rw [List.length_append, Nat.add_sub_cancel, List.drop_left]
    simp only [Scan.step, hcount, if_neg hlen, hdrop]
    rw [List.drop_append_of_le_length hn, List.append_assoc]
  · rw [List.take_append_of_le_length hn]; exact h.sub

/-- The batches of the log are batches of the history. -/
theorem Tail.flatten_sublist {base tail : List WalRecord} {L : History}
    (h : Tail H n b base tail L) : (L ++ H.drop n).flatten.Sublist H.flatten := by
  rw [List.flatten_append]
  conv => rhs; rw [← List.take_append_drop n H, List.flatten_append]
  exact h.sub.append (List.Sublist.refl _)

theorem Tail.sync {base tail : List WalRecord} {L : History} (h : Tail H n [] base tail L) :
    Tail H H.length [] (base ++ tail) [] (L ++ H.drop n) := by
  obtain ⟨pending, hall, -⟩ := h.all
  refine ⟨⟨pending, hall⟩, ⟨pending, ?_, List.nil_suffix⟩, ?_⟩
  · simpa using hall
  · rw [List.take_length]; exact h.flatten_sublist

/-! ## the log invariant -/

/-- Only the data file, the segments and the LSN counter matter. -/
theorem LogInv.congr (h : LogInv mode H n b s) (hd : s'.data = s.data)
    (hseg : s'.wal.segments = s.wal.segments) (ha : s'.wal.active = s.wal.active)
    (hl : s'.wal.nextLsn = s.wal.nextLsn)
    (hf : s.spareFile.stopped = true → s.checkpointInFlight = true →
      s'.checkpointInFlight = true) : LogInv mode H n b s' := by
  have hspare : s'.wal.spare = s.wal.spare := by simp [Wal.spare, ha]
  have hA : s'.activeFile = s.activeFile := by simp [DurableStore.activeFile, hseg, ha]
  have hS : s'.spareFile = s.spareFile := by simp [DurableStore.spareFile, hseg, hspare]
  refine ⟨h.proper, h.ordered, hl ▸ h.below, hl ▸ h.bound, h.durable, hd ▸ h.slots, hA ▸ h.open_,
    hA ▸ h.noCheckpoint, hA ▸ h.fresh, hA ▸ h.alone, ?_, ?_, ?_, hS ▸ h.single, ?_⟩
  · intro E hE
    obtain ⟨L, hv⟩ := h.views E (hS ▸ hE)
    exact ⟨L, hA ▸ hv.tail, hd ▸ hv.covered, hv.tearSafe, hA ▸ hv.sorted, by
      rw [hA, hl]; exact hv.below, hA ▸ hv.readable, hv.earlier⟩
  · rw [hS, hseg, hspare]; exact h.spareLive
  · rw [hA, hseg, ha]; exact h.activeLive
  · rw [hS]; exact fun hs => hf hs (h.stopped hs)

/-- An LSN may be skipped. -/
theorem LogInv.skip (h : LogInv mode H n b s) (hb : s.wal.nextLsn + 1 < 2 ^ 64) :
    LogInv mode H n b (DurableStore.onWal (fun w => { w with nextLsn := w.nextLsn + 1 }) s) := by
  refine { h with
    below := fun w hw => Nat.lt_succ_of_lt (h.below w hw)
    bound := hb
    views := fun E hE => ?_ }
  obtain ⟨L, hv⟩ := h.views E hE
  exact ⟨L, { hv with below := fun r hr => Nat.lt_succ_of_lt (hv.below r hr) }⟩

theorem sorted_concat {records : List WalRecord} {record : WalRecord} (h : Sorted records)
    (hl : ∀ r ∈ records, r.lsn < record.lsn) : Sorted (records ++ [record]) :=
  List.pairwise_append.mpr ⟨h, List.pairwise_singleton _ _, fun r hr r' hr' => by
    rw [List.mem_singleton] at hr'
    exact hr' ▸ hl r hr⟩

/-- The parts of the invariant that any record keeps. -/
theorem View.push {E : List WalRecord} {L : History} (h : View mode H n b s E L) {kind : WalKind}
    (hread : Readable kind) {H' : History} {b' : List CommittedWrite}
    (htail : Tail H' n b' (E ++ s.activeFile.synced)
      (s.activeFile.written ++ [⟨s.wal.nextLsn, kind⟩]) L)
    (htake : H'.take n = H.take n)
    (htear : mode.tears = true → ∀ m, n ≤ m → m ≤ H'.length →
      TearSafe (H'.take m).flatten (L ++ (H'.take m).drop n).flatten) :
    View mode H' n b' (s.push kind) E L := by
  refine ⟨?_, ?_, htear, ?_, ?_, ?_, ?_⟩
  · rw [DurableStore.activeFile_push]; exact htail
  · rw [htake]; exact h.covered
  · rw [DurableStore.activeFile_push]
    simp only [SegmentFile.append]
    rw [← List.append_assoc]
    exact sorted_concat h.sorted h.below
  · intro r hr
    rw [DurableStore.activeFile_push] at hr
    simp only [SegmentFile.append] at hr
    rw [← List.append_assoc, List.mem_append, List.mem_singleton] at hr
    rw [DurableStore.nextLsn_push]
    rcases hr with hr | rfl
    · exact Nat.lt_succ_of_lt (h.below r hr)
    · exact Nat.lt_succ_self _
  · rw [DurableStore.activeFile_push]
    simp only [SegmentFile.append]
    rw [← List.append_assoc]
    exact List.forall_mem_append.mpr ⟨h.readable, by simpa using hread⟩
  · rw [htake]; exact h.earlier

/-- What a record of any kind but a checkpoint keeps, if it turns the history `H`
with the page records `b` into `H'` with `b'`. -/
theorem LogInv.push (h : LogInv mode H n b s) {kind : WalKind} (hk : kind ≠ .checkpoint)
    (hread : Readable kind) (hb : s.wal.nextLsn + 1 < 2 ^ 64) {H' : History}
    {b' : List CommittedWrite}
    (hproper : Proper H'.flatten) (hordered : Ordered CommittedWrite.lsn (H'.flatten ++ b'))
    (hbelow : ∀ w ∈ H'.flatten ++ b', w ∈ H.flatten ++ b ∨ w.lsn = s.wal.nextLsn)
    (hfresh : ∀ w ∈ (H'.drop n).flatten ++ b',
      w ∈ (H.drop n).flatten ++ b ∨ w.lsn = s.wal.nextLsn)
    (hdurable : n ≤ H'.length) (htake : H'.take n = H.take n)
    (htail : ∀ base L, Tail H n b base s.activeFile.written L →
      Tail H' n b' base (s.activeFile.written ++ [⟨s.wal.nextLsn, kind⟩]) L)
    (htear : mode.tears = true → ∀ E L, s.spareFile.Leaves E → View mode H n b s E L →
      ∀ m, n ≤ m → m ≤ H'.length →
        TearSafe (H'.take m).flatten (L ++ (H'.take m).drop n).flatten) :
    LogInv mode H' n b' (s.push kind) := by
  refine ⟨hproper, hordered, ?_, hb, hdurable, h.slots, ?_, ?_, ?_, ?_, ?_, ?_, ?_, ?_, ?_⟩
  · intro w hw
    rw [DurableStore.nextLsn_push]
    rcases hbelow w hw with hw | hw
    · exact Nat.lt_succ_of_lt (h.below w hw)
    · omega
  · rw [DurableStore.activeFile_push]; exact h.open_
  · intro r hr
    rw [DurableStore.activeFile_push] at hr
    simp only [SegmentFile.append, List.mem_append, List.mem_singleton] at hr
    rcases hr with hr | rfl
    · exact h.noCheckpoint r hr
    · exact hk
  · intro w hw
    rw [DurableStore.activeFile_push]
    simp only [SegmentFile.append, List.mem_append, List.mem_singleton]
    rcases hfresh w hw with hw | hw
    · obtain ⟨r, hr, hle⟩ := h.fresh w hw
      exact ⟨r, Or.inl hr, hle⟩
    · exact ⟨_, Or.inr rfl, Nat.le_of_eq hw.symm⟩
  · obtain ⟨L, ht⟩ := h.alone
    rw [DurableStore.activeFile_push]
    exact ⟨L, htail _ L ht⟩
  · intro E hE
    rw [DurableStore.spareFile_push] at hE
    obtain ⟨L, hv⟩ := h.views E hE
    exact ⟨L, hv.push hread (htail _ L hv.tail) htake fun ht => htear ht E L hE hv⟩
  · rw [DurableStore.spareFile_push, DurableStore.spareSegment_push]
    exact h.spareLive
  · intro _
    simp only [DurableStore.push, Wal.push, Wal.onSegment_active, Wal.onSegment_segments_self]
    have := kind.recordLength_pos
    omega
  · rw [DurableStore.spareFile_push]; exact h.single
  · rw [DurableStore.spareFile_push]; exact h.stopped

/-- One more page record. -/
theorem LogInv.push_write (h : LogInv mode H n b s) {w : CommittedWrite}
    (hread : Readable w.kind) (hw : w.lsn = s.wal.nextLsn) (hb : s.wal.nextLsn + 1 < 2 ^ 64) :
    LogInv mode H n (b ++ [w]) (s.push w.kind) := by
  have hmem : ∀ (F : List CommittedWrite), ∀ v ∈ F ++ (b ++ [w]),
      v ∈ F ++ b ∨ v.lsn = s.wal.nextLsn := by
    intro F v hv
    rw [← List.append_assoc, List.mem_append, List.mem_singleton] at hv
    rcases hv with hv | rfl
    · exact Or.inl hv
    · exact Or.inr hw
  refine h.push w.kind_ne_checkpoint hread hb h.proper ?_ (hmem _) (hmem _) h.durable rfl
    (fun base L ht => hw ▸ ht.push w) (fun ht E L _ hv => hv.tearSafe ht)
  rw [← List.append_assoc]
  refine List.pairwise_append.mpr ⟨h.ordered, List.pairwise_singleton _ _, fun v hv v' hv' => ?_⟩
  rw [List.mem_singleton] at hv'
  rw [hv', hw]
  exact h.below v hv

/-- What the log says about a page must not rest on a page that can tear: the
batch replaces it, or it is new, or the log already has a change of it. -/
def TearOk (mode : Mode) (F : List CommittedWrite) (s : DurableStore) (w : CommittedWrite) : Prop :=
  mode.tears = true → w.appendAt = none ∨ onPage w.pageId F = [] ∨ s.Logged w.pageId

/-- A batch logged after changes `F`, of which the log holds `L`, can be redone
from nothing. -/
theorem TearSafe.batch {F L : List CommittedWrite} (h : TearSafe F L) (hs : L.Sublist F)
    (hb : ∀ w ∈ b, w.appendAt = none ∨ onPage w.pageId F = [] ∨ onPage w.pageId L ≠ []) :
    TearSafe (F ++ b) (L ++ b) := by
  intro id hne
  have hsub := onPage_sublist hs id
  simp only [Rebuilds, onPage_append] at hne ⊢
  by_cases hL : onPage id L = []
  · rw [hL, List.nil_append] at hne
    obtain ⟨w, hw⟩ := List.exists_mem_of_ne_nil _ hne
    obtain ⟨hwb, rfl⟩ := mem_onPage.mp hw
    rcases hb w hwb with himg | hnew | hlog
    · exact Redo.Rebuilds.of_absolute hsub hw (CommittedWrite.absolute_of_image himg) rfl
    · rw [hnew, hL]; exact Redo.Rebuilds.of_log _
    · exact absurd hL hlog
  · exact (h id hL).append _

/-- The commit record of a batch. -/
theorem LogInv.push_commit (h : LogInv mode H n b s) (hlen : b.length < 2 ^ 32)
    (hb : s.wal.nextLsn + 1 < 2 ^ 64) (hplace : ∀ w ∈ b, Placeable w.pageId)
    (hfits : ∀ w ∈ b, w.Fits) (htear : ∀ w ∈ b, TearOk mode H.flatten s w) :
    LogInv mode (H ++ [b]) n [] (s.push (.batchCommit (UInt32.ofNat b.length))) := by
  have hflat : (H ++ [b]).flatten = H.flatten ++ b := by simp
  have hdrop : (H ++ [b]).drop n = H.drop n ++ [b] := List.drop_append_of_le_length h.durable
  have htake : ∀ m ≤ H.length, (H ++ [b]).take m = H.take m := fun m hm =>
    List.take_append_of_le_length hm
  have hread : Readable (.batchCommit (UInt32.ofNat b.length)) := trivial
  refine h.push (by simp) hread hb ⟨?_, ?_, ?_⟩ ?_ ?_ ?_ ?_ (htake n h.durable)
    (fun base L ht => ht.commit h.durable hlen _) ?_
  · rw [hflat]; exact h.ordered
  · rw [hflat]
    intro w hw
    rcases List.mem_append.mp hw with hw | hw
    · exact h.proper.placeable w hw
    · exact hplace w hw
  · rw [hflat]
    intro w hw
    rcases List.mem_append.mp hw with hw | hw
    · exact h.proper.fits w hw
    · exact hfits w hw
  · rw [hflat, List.append_nil]; exact h.ordered
  · intro w hw
    rw [hflat, List.append_nil] at hw
    exact Or.inl hw
  · intro w hw
    rw [hdrop] at hw
    exact Or.inl (by simpa using hw)
  · rw [List.length_append]
    have := h.durable
    omega
  · intro ht E L hE hv m hnm hm
    by_cases hmH : m ≤ H.length
    · rw [htake m hmH]; exact hv.tearSafe ht m hnm hmH
    · -- the new batch, on top of the whole log
      have hmeq : m = (H ++ [b]).length := by
        rw [List.length_append, List.length_singleton] at hm ⊢; omega
      have hE' : E = [] := by
        rw [h.single (Mode.rotates_of_tears ht)] at hE
        simpa using SegmentFile.leaves_settled hE
      have hbase := hv.tearSafe ht H.length h.durable (Nat.le_refl _)
      rw [List.take_length] at hbase
      have hsub : (L ++ H.drop n).flatten.Sublist H.flatten := by
        rw [List.flatten_append]
        conv => rhs; rw [← List.take_append_drop n H, List.flatten_append]
        exact hv.tail.sub.append (List.Sublist.refl _)
      have hread : Reads (s.activeFile.synced ++ s.activeFile.written) (L ++ H.drop n) := by
        obtain ⟨pending, hall, -⟩ := hv.tail.all
        rw [hE', List.nil_append] at hall
        exact ⟨pending, hall⟩
      rw [hmeq, List.take_length, hdrop, hflat, ← List.append_assoc, List.flatten_append,
        List.flatten_singleton]
      refine hbase.batch hsub fun w hw => ?_
      rcases htear w hw ht with himg | hnew | hlog
      · exact Or.inl himg
      · exact Or.inr (Or.inl hnew)
      · exact Or.inr (Or.inr (hlog _ hread))

/-- A log sync makes every logged batch durable. -/
theorem LogInv.sync (h : LogInv mode H n [] s) : LogInv mode H H.length [] s.synced := by
  have hfile : s.activeFile.sync = { synced := s.activeFile.synced ++ s.activeFile.written } := by
    simp [SegmentFile.sync, SegmentFile.stored, h.open_]
  have hsplit : (H.take n).flatten ++ (H.drop n).flatten = H.flatten := by
    rw [← List.flatten_append, List.take_append_drop]
  refine ⟨h.proper, h.ordered, h.below, h.bound, Nat.le_refl _, h.slots, ?_, ?_, ?_, ?_, ?_, ?_, ?_,
    ?_, ?_⟩
  · rw [DurableStore.activeFile_synced, hfile]
  · rw [DurableStore.activeFile_synced, hfile]; simp
  · simp
  · obtain ⟨L, ht⟩ := h.alone
    rw [DurableStore.activeFile_synced, hfile]
    exact ⟨_, ht.sync⟩
  · intro E hE
    rw [DurableStore.spareFile_synced] at hE
    obtain ⟨L, hv⟩ := h.views E hE
    obtain ⟨Le, hLe, hLesub⟩ := hv.earlier
    refine ⟨L ++ H.drop n, ?_, ?_, ?_, ?_, ?_, ?_, Le, hLe, ?_⟩
    · rw [DurableStore.activeFile_synced, hfile]
      simpa only [List.append_assoc] using hv.tail.sync
    · rw [List.take_length, ← hsplit, List.flatten_append]
      exact hv.covered.append _
    · intro ht m hm hm'
      have hm : m = H.length := Nat.le_antisymm hm' hm
      have := hv.tearSafe ht m (by rw [hm]; exact h.durable) hm'
      rw [hm, List.take_length] at this ⊢
      simpa using this
    · rw [DurableStore.activeFile_synced, hfile]
      simpa only [List.append_assoc, List.append_nil] using hv.sorted
    · rw [DurableStore.activeFile_synced, hfile, DurableStore.nextLsn_synced]
      simpa only [List.append_assoc, List.append_nil] using hv.below
    · rw [DurableStore.activeFile_synced, hfile]
      simpa only [List.append_assoc, List.append_nil] using hv.readable
    · rw [List.take_length]
      exact hLesub.trans (take_flatten_sublist H n)
  · rw [DurableStore.spareFile_synced, DurableStore.spareSegment_synced]
    exact h.spareLive
  · rw [DurableStore.activeFile_synced]
    intro hne
    have hlive := h.activeLive (by
      simpa [hfile, SegmentFile.stored, h.open_] using hne)
    simpa [DurableStore.synced, DurableStore.onWal] using hlive
  · rw [DurableStore.spareFile_synced]; exact h.single
  · rw [DurableStore.spareFile_synced]; exact h.stopped

/-! ## the data file -/

/-- A data file that can be left with less is as good. -/
theorem LogInv.narrow_data (h : LogInv mode H n b s) {data : DataFile}
    (hd : ∀ id image, (data.slot id).Leaves mode.tears image →
      (s.data.slot id).Leaves mode.tears image)
    (hc : data.pageCount ≤ s.data.pageCount) : LogInv mode H n b { s with data := data } := by
  refine { h with slots := h.slots.narrow hd hc, views := fun E hE => ?_ }
  obtain ⟨L, hv⟩ := h.views E hE
  exact ⟨L, { hv with covered := hv.covered.narrow hd }⟩

theorem LogInv.sync_data (h : LogInv mode H n b s) :
    LogInv mode H n b { s with data := s.data.sync } := by
  refine h.narrow_data (fun id image hl => ?_) (Nat.le_of_eq (DataFile.pageCount_sync _))
  rw [DataFile.slot_sync] at hl
  rw [Slot.leaves_sync hl]
  exact Slot.leaves_current _ _

/-- A page goes to the data file, if the durable log can redo it. -/
theorem LogInv.write_data (h : LogInv mode H n b s) {page : Page} (hp : Placeable page.id)
    (hq : ∀ E L, s.spareFile.Leaves E → View mode H n b s E L →
      Rebuilds page.id (H.take n).flatten L.flatten (some page.stamped) ∧
        (mode.tears = true → onPage page.id L.flatten ≠ [])) :
    LogInv mode H n b { s with data := s.data.write page } := by
  refine { h with slots := h.slots.write hp, views := fun E hE => ?_ }
  obtain ⟨L, hv⟩ := h.views E hE
  obtain ⟨hreb, hlog⟩ := hq E L hE hv
  refine ⟨L, { hv with covered := hv.covered.write hreb fun ht => ⟨hlog ht, ?_⟩ }⟩
  have hsafe := hv.tearSafe ht n (Nat.le_refl _) h.durable
  have hnil : (H.take n).drop n = [] := by simp
  rw [hnil, List.append_nil] at hsafe
  exact hsafe _ (hlog ht)

end QuantaDb
