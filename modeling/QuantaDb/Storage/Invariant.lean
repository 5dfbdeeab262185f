import QuantaDb.Storage.History

/-!
# QuantaDb.Storage.Invariant

What holds between the steps of a run, and what a disk must satisfy for the
store to come back from it.

* `Durable mode H d` — opening `d` brings back exactly the history `H`;
* `Keeps mode bs n d` — whatever a power failure leaves of `d` is `Durable` for
  some prefix of the batches `bs`, of length at least `n`;
* `LogInv mode H n b s` — the log and the data file of an open store: the first
  `n` batches of `H` are durable, the rest are complete in the unsynced part of
  the log, and `b` are the page records of a batch still being logged;
* `MemInv mode G X s` — the dirty table and the flush bookkeeping, for a store
  that has published the changes `G`.

`LogInv.keeps` is the bridge: the log invariant of a running store says what
every power failure leaves.
-/

namespace QuantaDb

open Redo

/-- Which of the hazards a run may meet: none of the two, torn data pages, or
log rotation. -/
inductive Mode where
  | plain
  | tearing
  | rotating
deriving DecidableEq

def Mode.tears : Mode → Bool
  | .tearing => true
  | _ => false

def Mode.rotates : Mode → Bool
  | .rotating => true
  | _ => false

variable {mode : Mode}

theorem Mode.rotates_of_tears (h : mode.tears = true) : mode.rotates = false := by
  cases mode <;> simp_all [Mode.tears, Mode.rotates]

/-! ## reading a log -/

/-- The records read as the batches `L` and possibly an unfinished one. -/
def Reads (records : List WalRecord) (L : History) : Prop :=
  ∃ pending, scan records = some ⟨pending, L⟩

variable {records : List WalRecord} {L : History}

theorem Reads.unique {L' : History} (h : Reads records L) (h' : Reads records L') : L = L' := by
  obtain ⟨p, h⟩ := h
  obtain ⟨p', h'⟩ := h'
  rw [h] at h'
  simp only [Option.some.injEq, Scan.mk.injEq] at h'
  exact h'.2

theorem reads_nil : Reads [] [] := ⟨[], rfl⟩

/-- The number of batch commits among the records. -/
def commits (records : List WalRecord) : Nat :=
  records.countP fun record => match record.kind with
    | .batchCommit _ => true
    | _ => false

/-- Without a checkpoint, a pass adds one batch for each commit. -/
theorem Scan.length_batches_of_run {st st' : Scan} (h : st.run records = some st')
    (hc : ∀ r ∈ records, r.kind ≠ .checkpoint) :
    st'.batches.length = st.batches.length + commits records := by
  induction records generalizing st with
  | nil => cases h; rfl
  | cons record rest ih =>
    rw [Scan.run_cons] at h
    cases hs : st.step record with
    | none => rw [hs] at h; cases h
    | some st₁ =>
      rw [hs] at h
      have hrest := ih h fun r hr => hc r (List.mem_cons_of_mem record hr)
      have hone : st₁.batches.length = st.batches.length + commits [record] := by
        obtain ⟨lsn, kind⟩ := record
        cases kind with
        | pageImage pageId payload => cases hs; rfl
        | pageAppend pageId offset payload => cases hs; rfl
        | batchCommit pageCount =>
          simp only [Scan.step] at hs
          split at hs
          · cases hs
          · cases hs; simp [commits]
        | checkpoint => exact absurd rfl (hc _ List.mem_cons_self)
      rw [hrest, hone]
      simp only [commits, List.countP_cons, List.countP_nil]
      omega

/-- The log that ends in `tail` holds the batches of `H` from the `n`-th on in
that tail, and the page records `b` behind them. -/
structure Tail (H : History) (n : Nat) (b : List CommittedWrite) (base tail : List WalRecord)
    (L : History) : Prop where
  reads : Reads base L
  all : ∃ pending, scan (base ++ tail) = some ⟨pending, L ++ H.drop n⟩ ∧ b <:+ pending
  sub : L.flatten.Sublist (H.take n).flatten

theorem take_drop_eq (H : History) (n j : Nat) : (H.take (n + j)).drop n = (H.drop n).take j := by
  rw [List.drop_take]
  congr 1
  omega

variable {H : History} {n : Nat} {b : List CommittedWrite}

/-- A cut of the tail holds as many batches as it has commits. -/
theorem Tail.reads_take {base tail : List WalRecord} (h : Tail H n b base tail L)
    (hn : n ≤ H.length) (hc : ∀ r ∈ tail, r.kind ≠ .checkpoint) (k : Nat) :
    n + commits (tail.take k) ≤ H.length ∧
      Reads (base ++ tail.take k) (L ++ (H.take (n + commits (tail.take k))).drop n) := by
  obtain ⟨pending₀, hbase⟩ := h.reads
  obtain ⟨pending, hall, -⟩ := h.all
  rw [← List.take_append_drop k tail, ← List.append_assoc] at hall
  obtain ⟨st, hst, hrest⟩ := Scan.run_prefix hall
  have hcut : Scan.run ⟨pending₀, L⟩ (tail.take k) = some st := by
    obtain ⟨st', hst', hrun⟩ := Scan.run_prefix hst
    have : st' = ⟨pending₀, L⟩ := by
      have := hst'.symm.trans hbase
      simpa using this
    rw [← this]; exact hrun
  have hct : ∀ r ∈ tail.take k, r.kind ≠ .checkpoint := fun r hr => hc r (List.mem_of_mem_take hr)
  have hcd : ∀ r ∈ tail.drop k, r.kind ≠ .checkpoint := fun r hr => hc r (List.mem_of_mem_drop hr)
  have hlen := Scan.length_batches_of_run hcut hct
  obtain ⟨X, hX⟩ := Scan.batches_prefix_of_run hcut hct
  have hpre := Scan.batches_prefix_of_run hrest hcd
  simp only at hX hlen hpre
  rw [← hX, List.prefix_append_right_inj] at hpre
  have hXlen : X.length = commits (tail.take k) := by
    rw [← hX, List.length_append] at hlen
    omega
  have hle : X.length ≤ (H.drop n).length := hpre.length_le
  rw [List.length_drop] at hle
  refine ⟨by omega, st.pending, ?_⟩
  rw [take_drop_eq, ← hXlen, ← List.prefix_iff_eq_take.mp hpre, hX]
  exact hst

theorem drop_take_length (H : History) {m : Nat} (h : H.length ≤ m) :
    (H.take m).drop H.length = [] := by
  rw [List.take_of_length_le h, List.drop_length]

/-- A log with no durable batch to come reads the same wherever its tail is cut. -/
theorem Tail.reads_cut {base tail : List WalRecord} (h : Tail H H.length [] base tail L)
    (hc : ∀ r ∈ tail, r.kind ≠ .checkpoint) (k : Nat) :
    Reads (base ++ tail.take k) L := by
  obtain ⟨hk, hreads⟩ := h.reads_take (Nat.le_refl _) hc k
  rw [drop_take_length H (by omega), List.append_nil] at hreads
  exact hreads

/-- Records that read as part of a durable history, with nothing behind them. -/
theorem tail_of_reads (h : Reads records L) (hs : L.flatten.Sublist H.flatten) :
    Tail H H.length [] records [] L := by
  obtain ⟨pending, hscan⟩ := h
  refine ⟨⟨pending, hscan⟩, ⟨pending, by simpa using hscan, List.nil_suffix⟩, ?_⟩
  rw [List.take_length]; exact hs

/-! ## slots -/

/-- Every page in a slot is that slot's page, the file is not too long, and where
pages do not tear every slot decodes. -/
structure SlotsOk (mode : Mode) (data : DataFile) : Prop where
  ids : ∀ id page, (data.slot id).Leaves mode.tears (some (.page page)) → page.id = id
  count : ∀ raw < data.pageCount, raw * pageSize + pageSize ≤ maxFileLength
  intact : mode.tears = false → ∀ id reason,
    ¬ (data.slot id).Leaves mode.tears (some (.torn reason))

/-- What a slot holds now is one of the things a power failure can leave. -/
theorem Slot.leaves_current (tears : Bool) (slot : Slot) : slot.Leaves tears slot.current := by
  unfold Slot.current
  cases hl : slot.writes.getLast? with
  | none => exact .old
  | some page => exact .new page (List.mem_of_getLast? hl)

variable {tears : Bool} {image : Option PageImage}

theorem Slot.leaves_settled {image' : Option PageImage}
    (h : Slot.Leaves tears { synced := image } image') : image' = image := by
  cases h with
  | old => rfl
  | new page h => simp at h
  | torn reason ht hw => simp at hw

theorem Slot.leaves_sync {slot : Slot} (h : slot.sync.Leaves tears image) :
    image = slot.current := Slot.leaves_settled h

theorem Slot.leaves_write {slot : Slot} {page : Page} (h : (slot.write page).Leaves tears image) :
    slot.Leaves tears image ∨ image = some (.page page) ∨
      (tears = true ∧ ∃ reason, image = some (.torn reason)) := by
  cases h with
  | old => exact Or.inl .old
  | new q h =>
    simp only [Slot.write, List.mem_append, List.mem_singleton] at h
    rcases h with h | rfl
    · exact Or.inl (.new q h)
    · exact Or.inr (Or.inl rfl)
  | torn reason ht hw => exact Or.inr (Or.inr ⟨ht, reason, rfl⟩)

/-- Whatever a power failure leaves in a slot, redoing `L` onto it gives the
page that `F` makes; bytes that do not decode are redone onto. -/
def Covered (mode : Mode) (F L : List CommittedWrite) (data : DataFile) : Prop :=
  ∀ id image, (data.slot id).Leaves mode.tears image →
    Rebuilds id F L (stampOf image) ∧ (∀ reason, image = some (.torn reason) → onPage id L ≠ [])

/-- Redoing `L` needs no page to start from, on the pages it touches. -/
def TearSafe (F L : List CommittedWrite) : Prop :=
  ∀ id, onPage id L ≠ [] → Rebuilds id F L none

variable {F : List CommittedWrite} {data : DataFile}

theorem Covered.append {L : List CommittedWrite} (h : Covered mode F L data)
    (X : List CommittedWrite) : Covered mode (F ++ X) (L ++ X) data := by
  intro id image hl
  obtain ⟨hr, ht⟩ := h id image hl
  refine ⟨?_, fun reason he => ?_⟩
  · simp only [Rebuilds, onPage_append]
    exact hr.append _
  · rw [onPage_append]
    exact List.append_ne_nil_of_left_ne_nil (ht reason he) _

theorem Covered.narrow {L : List CommittedWrite} {data' : DataFile} (h : Covered mode F L data)
    (hd : ∀ id image, (data'.slot id).Leaves mode.tears image →
      (data.slot id).Leaves mode.tears image) : Covered mode F L data' :=
  fun id image hl => h id image (hd id image hl)

theorem SlotsOk.narrow {data' : DataFile} (h : SlotsOk mode data)
    (hd : ∀ id image, (data'.slot id).Leaves mode.tears image →
      (data.slot id).Leaves mode.tears image) (hc : data'.pageCount ≤ data.pageCount) :
    SlotsOk mode data' :=
  ⟨fun id page hl => h.ids id page (hd id _ hl), fun raw hr => h.count raw (by omega),
    fun ht id reason hl => h.intact ht id reason (hd id _ hl)⟩

theorem SlotsOk.write (h : SlotsOk mode data) {page : Page} (hp : Placeable page.id) :
    SlotsOk mode (data.write page) := by
  refine ⟨fun id q hl => ?_, fun raw hr => ?_, fun ht id reason hl => ?_⟩
  · by_cases hid : page.id = id
    · subst hid
      rw [DataFile.slot_write_self] at hl
      rcases Slot.leaves_write hl with hl | hl | ⟨_, reason, hl⟩
      · exact h.ids _ _ hl
      · cases hl; rfl
      · cases hl
    · rw [DataFile.slot_write_of_ne _ hid] at hl
      exact h.ids _ _ hl
  · rcases DataFile.lt_pageCount_write hr with hr | hr
    · exact h.count raw hr
    · exact Nat.le_trans (Nat.add_le_add_right (Nat.mul_le_mul_right _ hr) _) hp
  · by_cases hid : page.id = id
    · subst hid
      rw [DataFile.slot_write_self] at hl
      rcases Slot.leaves_write hl with hl | hl | ⟨htear, _⟩
      · exact h.intact ht _ _ hl
      · cases hl
      · rw [ht] at htear; cases htear
    · rw [DataFile.slot_write_of_ne _ hid] at hl
      exact h.intact ht _ _ hl

/-- A page that the log can be redone onto may go to the data file; where pages
tear, the log must also do without it. -/
theorem Covered.write {L : List CommittedWrite} (h : Covered mode F L data) {page : Page}
    (hreb : Rebuilds page.id F L (some page.stamped))
    (htear : mode.tears = true → onPage page.id L ≠ [] ∧ Rebuilds page.id F L none) :
    Covered mode F L (data.write page) := by
  intro id image hl
  by_cases hid : page.id = id
  · subst hid
    rw [DataFile.slot_write_self] at hl
    rcases Slot.leaves_write hl with hl | hl | ⟨ht, reason, hl⟩
    · exact h _ _ hl
    · subst hl
      exact ⟨hreb, fun _ he => by cases he⟩
    · subst hl
      exact ⟨(htear ht).2, fun _ _ => (htear ht).1⟩
  · rw [DataFile.slot_write_of_ne _ hid] at hl
    exact h _ _ hl

/-! ## disks -/

def Sorted (records : List WalRecord) : Prop := records.Pairwise fun a b => a.lsn < b.lsn

/-- Two segments, the earlier and the later, that read together as `L`, and each
on its own as part of the history `F`. -/
structure PairOk (mode : Mode) (F : List CommittedWrite) (E A : List WalRecord) (L : History) :
    Prop where
  sorted : Sorted (E ++ A)
  bound : ∀ r ∈ E ++ A, r.lsn + 1 < 2 ^ 64
  readable : ∀ r ∈ E ++ A, Readable r.kind
  earlier : ∃ L', Reads E L' ∧ L'.flatten.Sublist F
  later : ∃ L', Reads A L' ∧ L'.flatten.Sublist F
  reads : Reads (E ++ A) L
  sub : L.flatten.Sublist F
  tearSafe : mode.tears = true → TearSafe F L.flatten
  single : mode.rotates = false → E = []

/-- Opening the disk brings back the history `H`. -/
structure Durable (mode : Mode) (H : History) (d : Disk) : Prop where
  proper : Proper H.flatten
  bound : ∀ w ∈ H.flatten, w.lsn + 1 < 2 ^ 64
  slots : SlotsOk mode d.data
  log : ∃ (e : Fin 2) (E A : List WalRecord) (L : History),
    d.segments e = { synced := E } ∧ d.segments (1 - e) = { synced := A } ∧
      PairOk mode H.flatten E A L ∧ Covered mode H.flatten L.flatten d.data

/-- One disk is what is left of the other: its log is settled, and its slots
hold nothing the other's could not be left with. -/
structure Disk.Narrows (mode : Mode) (d d' : Disk) : Prop where
  segments : ∀ i, ∃ records, (d.segments i).Leaves records ∧
    d'.segments i = { synced := records }
  slots : ∀ id image, (d'.data.slot id).Leaves mode.tears image →
    (d.data.slot id).Leaves mode.tears image
  pageCount : d'.data.pageCount ≤ d.data.pageCount

theorem Disk.Crash.narrows {mode : Mode} {d d' : Disk} (h : d.Crash mode.tears d') :
    d.Narrows mode d' := by
  refine ⟨h.segments, fun id image hl => ?_, h.pageCount⟩
  obtain ⟨image', hl', hs⟩ := h.slots id
  rw [hs] at hl
  rw [Slot.leaves_settled hl]
  exact hl'

/-- Whatever is left of the disk brings back a history in `Hs`. -/
def Recoverable (mode : Mode) (Hs : History → Prop) (d : Disk) : Prop :=
  ∀ d', d.Narrows mode d' → ∃ H, Hs H ∧ Durable mode H d'

/-- Whatever is left of the disk brings back a prefix of the batches, of length
at least `n`. -/
def Keeps (mode : Mode) (batches : List Batch) (n : Nat) (d : Disk) : Prop :=
  Recoverable mode (fun H => ∃ m, n ≤ m ∧ m ≤ batches.length ∧ H.given = batches.take m) d

theorem SegmentFile.leaves_settled {records' : List WalRecord}
    (h : SegmentFile.Leaves { synced := records } records') : records' = records := by
  cases h with
  | kept count => simp
  | stopped h => cases h

theorem Durable.narrow {d d' : Disk} (h : Durable mode H d) (hn : d.Narrows mode d') :
    Durable mode H d' := by
  obtain ⟨e, E, A, L, he, hl, hpair, hcov⟩ := h.log
  have keep : ∀ i records, d.segments i = { synced := records } →
      d'.segments i = { synced := records } := by
    intro i records hi
    obtain ⟨records', hl, hi'⟩ := hn.segments i
    rw [hi] at hl
    rw [hi', SegmentFile.leaves_settled hl]
  exact ⟨h.proper, h.bound, h.slots.narrow hn.slots hn.pageCount,
    e, E, A, L, keep e E he, keep _ A hl, hpair, hcov.narrow hn.slots⟩

variable {batches : List Batch}

theorem Durable.keeps {d : Disk} (h : Durable mode H d) {m : Nat} (hn : n ≤ m)
    (hm : m ≤ batches.length) (hg : H.given = batches.take m) : Keeps mode batches n d :=
  fun _ hd => ⟨H, ⟨m, hn, hm, hg⟩, h.narrow hd⟩

/-- More batches may be given, and fewer of them need to be kept. -/
theorem Keeps.mono {d : Disk} {batches' : List Batch} {n' : Nat} (h : Keeps mode batches n d)
    (hp : batches <+: batches') (hn : n' ≤ n) :
    Keeps mode batches' n' d := by
  intro d' hd
  obtain ⟨H, ⟨m, hnm, hm, hg⟩, hdur⟩ := h d' hd
  obtain ⟨rest, rfl⟩ := hp
  refine ⟨H, ⟨m, by omega, ?_, ?_⟩, hdur⟩
  · rw [List.length_append]; omega
  · rw [List.take_append_of_le_length hm]; exact hg

/-! ## the log of an open store -/

namespace DurableStore

def activeFile (s : DurableStore) : SegmentFile := (s.wal.segments s.wal.active).file

def spareFile (s : DurableStore) : SegmentFile := (s.wal.segments s.wal.spare).file

end DurableStore

/-- The log and the data file of a store, if `E` is what is left of the segment
that is not active: the durable part of the log holds the batches `L`. -/
structure View (mode : Mode) (H : History) (n : Nat) (b : List CommittedWrite) (s : DurableStore)
    (E : List WalRecord) (L : History) : Prop where
  tail : Tail H n b (E ++ s.activeFile.synced) s.activeFile.written L
  covered : Covered mode (H.take n).flatten L.flatten s.data
  tearSafe : mode.tears = true → ∀ m, n ≤ m → m ≤ H.length →
    TearSafe (H.take m).flatten (L ++ (H.take m).drop n).flatten
  sorted : Sorted (E ++ s.activeFile.synced ++ s.activeFile.written)
  below : ∀ r ∈ E ++ s.activeFile.synced ++ s.activeFile.written, r.lsn < s.wal.nextLsn
  readable : ∀ r ∈ E ++ s.activeFile.synced ++ s.activeFile.written, Readable r.kind
  earlier : ∃ L', Reads E L' ∧ L'.flatten.Sublist (H.take n).flatten

/-- The log and the data file of an open store. -/
structure LogInv (mode : Mode) (H : History) (n : Nat) (b : List CommittedWrite)
    (s : DurableStore) : Prop where
  proper : Proper H.flatten
  ordered : Ordered CommittedWrite.lsn (H.flatten ++ b)
  below : ∀ w ∈ H.flatten ++ b, w.lsn < s.wal.nextLsn
  bound : s.wal.nextLsn < 2 ^ 64
  durable : n ≤ H.length
  slots : SlotsOk mode s.data
  open_ : s.activeFile.stopped = false
  noCheckpoint : ∀ r ∈ s.activeFile.written, r.kind ≠ .checkpoint
  /-- every change that is not durable has its record in the unsynced tail -/
  fresh : ∀ w ∈ (H.drop n).flatten ++ b, ∃ r ∈ s.activeFile.written, r.lsn ≤ w.lsn
  /-- the active segment reads on its own -/
  alone : ∃ L, Tail H n b s.activeFile.synced s.activeFile.written L
  views : ∀ E, s.spareFile.Leaves E → ∃ L, View mode H n b s E L
  spareLive : ∀ E, s.spareFile.Leaves E → E ≠ [] → 0 < (s.wal.segments s.wal.spare).endOffset
  activeLive : s.activeFile.stored ≠ [] → 0 < (s.wal.segments s.wal.active).endOffset
  single : mode.rotates = false → s.spareFile = {}
  stopped : s.spareFile.stopped = true → s.checkpointInFlight = true

theorem SegmentFile.leaves_of_open {file : SegmentFile} (h : file.stopped = false)
    (hl : file.Leaves records) :
    ∃ k, records = file.synced ++ file.written.take k := by
  cases hl with
  | kept count => exact ⟨count, rfl⟩
  | stopped hs => rw [h] at hs; cases hs

variable {s : DurableStore}

theorem LogInv.lsn_bound (h : LogInv mode H n b s) : ∀ w ∈ H.flatten, w.lsn + 1 < 2 ^ 64 := by
  intro w hw
  have := h.below w (List.mem_append_left _ hw)
  have := h.bound
  omega

/-- **What a power failure leaves of a running store** is the durable batches
and some of those behind them. -/
theorem LogInv.recoverable (h : LogInv mode H n b s) :
    Recoverable mode (fun H' => ∃ m, n ≤ m ∧ m ≤ H.length ∧ H' = H.take m) s.disk := by
  intro d' hd
  obtain ⟨E, hE, hspare⟩ := hd.segments s.wal.spare
  obtain ⟨A, hA, hactive⟩ := hd.segments s.wal.active
  obtain ⟨k, rfl⟩ := SegmentFile.leaves_of_open h.open_ hA
  obtain ⟨L, hview⟩ := h.views E hE
  obtain ⟨hm, hreads⟩ := hview.tail.reads_take h.durable h.noCheckpoint k
  obtain ⟨La, ha⟩ := h.alone
  obtain ⟨-, hlater⟩ := ha.reads_take h.durable h.noCheckpoint k
  generalize hmk : n + commits (List.take k s.activeFile.written) = m at hm hreads hlater
  have hnm : n ≤ m := by omega
  have hsplit := flatten_take_append H hnm
  have hcut : ∀ r ∈ E ++ (s.activeFile.synced ++ s.activeFile.written.take k),
      r ∈ E ++ s.activeFile.synced ++ s.activeFile.written := by
    intro r hr
    simp only [List.mem_append] at hr ⊢
    rcases hr with hr | hr | hr
    · exact Or.inl (Or.inl hr)
    · exact Or.inl (Or.inr hr)
    · exact Or.inr (List.mem_of_mem_take hr)
  have hsublog : (E ++ (s.activeFile.synced ++ s.activeFile.written.take k)).Sublist
      (E ++ s.activeFile.synced ++ s.activeFile.written) := by
    rw [← List.append_assoc]
    exact (List.Sublist.refl _).append (List.take_sublist _ _)
  obtain ⟨Le, hLe, hLesub⟩ := hview.earlier
  refine ⟨H.take m, ⟨m, hnm, hm, rfl⟩, h.proper.sublist (take_flatten_sublist H m),
    fun w hw => h.lsn_bound w ((take_flatten_sublist H m).subset hw),
    h.slots.narrow hd.slots hd.pageCount, s.wal.spare, E,
    s.activeFile.synced ++ s.activeFile.written.take k, L ++ (H.take m).drop n, hspare, ?_, ?_, ?_⟩
  · have : (1 : Fin 2) - s.wal.spare = s.wal.active := by
      unfold Wal.spare
      generalize s.wal.active = i
      revert i; decide
    rw [this]; exact hactive
  · refine ⟨?_, ?_, fun r hr => hview.readable r (hcut r hr), ⟨Le, hLe, ?_⟩, ⟨_, hlater, ?_⟩, ?_,
      ?_, ?_, ?_⟩
    · exact List.Pairwise.sublist hsublog hview.sorted
    · intro r hr
      have := hview.below r (hcut r hr)
      have := h.bound
      omega
    · rw [hsplit]
      exact hLesub.trans (List.sublist_append_left _ _)
    · rw [hsplit, List.flatten_append]
      exact ha.sub.append (List.Sublist.refl _)
    · rw [← List.append_assoc]; exact hreads
    · rw [hsplit, List.flatten_append]
      exact hview.tail.sub.append (List.Sublist.refl _)
    · exact fun ht => hview.tearSafe ht m hnm hm
    · intro hr
      have hfile := h.single hr
      rw [show s.disk.segments s.wal.spare = s.spareFile from rfl, hfile] at hE
      simpa using SegmentFile.leaves_settled hE
  · rw [hsplit, List.flatten_append]
    exact (hview.covered.append _).narrow hd.slots

theorem LogInv.keeps (h : LogInv mode H n b s) (hp : H.given <+: batches) :
    Keeps mode batches n s.disk := by
  intro d' hd
  obtain ⟨H', ⟨m, hnm, hm, rfl⟩, hdur⟩ := h.recoverable d' hd
  refine ⟨H.take m, ⟨m, hnm, ?_, ?_⟩, hdur⟩
  · have := hp.length_le
    rw [History.length_given] at this
    omega
  · obtain ⟨rest, rfl⟩ := hp
    rw [List.take_append_of_le_length (by simpa using hm)]
    simp [History.given, List.map_take]

/-- Forget the page records of a batch that was given up. -/
theorem LogInv.forget (h : LogInv mode H n b s) : LogInv mode H n [] s := by
  have tail : ∀ {base tail : List WalRecord} {L : History}, Tail H n b base tail L →
      Tail H n [] base tail L := by
    intro base tail L ht
    obtain ⟨pending, hall, -⟩ := ht.all
    exact ⟨ht.reads, ⟨pending, hall, List.nil_suffix⟩, ht.sub⟩
  refine { h with
    ordered := by rw [List.append_nil]; exact h.proper.ordered
    below := fun w hw => h.below w (by simp at hw ⊢; exact Or.inl hw)
    fresh := fun w hw => h.fresh w (by simp at hw ⊢; exact Or.inl hw)
    alone := h.alone.imp fun L hL => tail hL
    views := fun E hE => ?_ }
  obtain ⟨L, hview⟩ := h.views E hE
  exact ⟨L, { hview with tail := tail hview.tail }⟩

end QuantaDb
