import QuantaDb.Storage.Flush

/-!
# QuantaDb.Storage.Checkpoint

`checkpoint`: flush every dirty page, sync the data file, log a checkpoint
record, and only then seal the log.

From the data sync on, the data file alone holds the history (`Flushed`), so it
does not matter which of the two segments a power failure leaves, or how much of
them: `Flushed.keeps` covers every point between the sync and the last seal.
-/

namespace QuantaDb

open Redo Crash DurableStore

variable {mode : Mode} {H : History} {n : Nat}

/-! ## a data file that holds the whole history -/

/-- Whatever a power failure leaves in a slot is the page the history makes. -/
def Settled (mode : Mode) (F : List CommittedWrite) (data : DataFile) : Prop :=
  ∀ id image, (data.slot id).Leaves mode.tears image → Holds image (imageOf (onPage id F))

theorem Settled.covered {F L : List CommittedWrite} {data : DataFile}
    (h : Settled mode F data) (hs : L.Sublist F) : Covered mode F L data := by
  intro id image hl
  obtain ⟨hintact, himg⟩ := h id image hl
  rw [himg]
  exact ⟨Redo.Rebuilds.of_latest (onPage_sublist hs id),
    fun reason he => absurd he (hintact reason)⟩

theorem settled_sync {F : List CommittedWrite} {data : DataFile}
    (h : ∀ id, Holds (data.slot id).current (imageOf (onPage id F))) :
    Settled mode F data.sync := by
  intro id image hl
  rw [DataFile.slot_sync] at hl
  rw [Slot.leaves_sync hl]
  exact h id

/-- The records read as part of the history. -/
def ReadsPart (F : List CommittedWrite) (records : List WalRecord) : Prop :=
  ∃ L, Reads records L ∧ L.flatten.Sublist F

theorem readsPart_nil (F : List CommittedWrite) : ReadsPart F [] :=
  ⟨[], reads_nil, List.nil_sublist F⟩

/-- The segments `E` and `A` can be opened together on a settled data file. -/
theorem pairOk_of_settled {F : List CommittedWrite} {E A : List WalRecord}
    (hsorted : Sorted (E ++ A))
    (hrecords : ∀ r ∈ E ++ A, r.lsn + 1 < 2 ^ 64 ∧ Readable r.kind)
    (hE : ReadsPart F E) (hA : ReadsPart F A)
    (hEA : ∃ L, Reads (E ++ A) L ∧ L.flatten.Sublist F ∧ (mode.tears = true → TearSafe F L.flatten))
    (hsingle : mode.rotates = false → E = []) : ∃ L, PairOk mode F E A L := by
  obtain ⟨L, hreads, hsub, htear⟩ := hEA
  exact ⟨L, hsorted, fun r hr => (hrecords r hr).1, fun r hr => (hrecords r hr).2, hE, hA, hreads,
    hsub, htear, hsingle⟩

/-- A log that ends in a checkpoint reads as nothing. -/
theorem reads_checkpoint {records : List WalRecord} {L : History} (h : Reads records L)
    (lsn : Nat) : Reads (records ++ [⟨lsn, .checkpoint⟩]) [] := by
  obtain ⟨pending, h⟩ := h
  exact ⟨[], by rw [scan_concat, h]; rfl⟩

/-! ## from the data sync to the last seal -/

/-- What is left of the active segment while a checkpoint of `s₁` seals the log:
nothing, what was there before, or that with the checkpoint record. -/
def ActiveLeft (s₁ : DurableStore) (records : List WalRecord) : Prop :=
  records = [] ∨ (∃ k, records = s₁.activeFile.synced ++ s₁.activeFile.written.take k) ∨
    records = s₁.activeFile.synced ++ s₁.activeFile.written ++ [⟨s₁.wal.nextLsn, .checkpoint⟩]

/-- What is left of the other segment. -/
def SpareLeft (s₁ : DurableStore) (records : List WalRecord) : Prop :=
  records = [] ∨ s₁.spareFile.Leaves records

section

variable {s₁ : DurableStore} (hinv : LogInv mode H H.length [] s₁)
include hinv

/-- The active segment alone, cut anywhere in its tail. -/
theorem LogInv.reads_active (k : Nat) :
    ReadsPart H.flatten (s₁.activeFile.synced ++ s₁.activeFile.written.take k) := by
  obtain ⟨La, ha⟩ := hinv.alone
  have hsub := ha.sub
  rw [List.take_length] at hsub
  exact ⟨La, ha.reads_cut hinv.noCheckpoint k, hsub⟩

variable {A : List WalRecord}

theorem LogInv.readsPart_activeLeft (hA : ActiveLeft s₁ A) :
    ReadsPart H.flatten A := by
  rcases hA with rfl | ⟨k, rfl⟩ | rfl
  · exact readsPart_nil _
  · exact hinv.reads_active k
  · obtain ⟨L, hL, -⟩ := hinv.reads_active s₁.activeFile.written.length
    rw [List.take_length] at hL
    exact ⟨[], reads_checkpoint hL _, List.nil_sublist _⟩

variable {E : List WalRecord}

theorem LogInv.readsPart_spareLeft (hE : SpareLeft s₁ E) :
    ReadsPart H.flatten E := by
  rcases hE with rfl | hE
  · exact readsPart_nil _
  · obtain ⟨L, hv⟩ := hinv.views E hE
    obtain ⟨Le, hLe, hsub⟩ := hv.earlier
    rw [List.take_length] at hsub
    exact ⟨Le, hLe, hsub⟩

/-- What the two segments are left with reads as part of the history, redone from
nothing where pages tear. -/
theorem LogInv.reads_left (hE : SpareLeft s₁ E) (hA : ActiveLeft s₁ A) :
    ∃ L, Reads (E ++ A) L ∧ L.flatten.Sublist H.flatten ∧
      (mode.tears = true → TearSafe H.flatten L.flatten) := by
  have hsub₀ : ([] : History).flatten.Sublist H.flatten := List.nil_sublist _
  have htear₀ : mode.tears = true → TearSafe H.flatten ([] : History).flatten :=
    fun _ id hne => absurd rfl hne
  have view : ∀ E k, s₁.spareFile.Leaves E → ∃ L,
      Reads (E ++ (s₁.activeFile.synced ++ s₁.activeFile.written.take k)) L ∧
        L.flatten.Sublist H.flatten ∧ (mode.tears = true → TearSafe H.flatten L.flatten) := by
    intro E k hE
    obtain ⟨L, hv⟩ := hinv.views E hE
    obtain ⟨hm, hreads⟩ := hv.tail.reads_take hinv.durable hinv.noCheckpoint k
    rw [drop_take_length H (by omega), List.append_nil, List.append_assoc] at hreads
    refine ⟨L, hreads, by simpa using hv.tail.sub, fun ht => ?_⟩
    have := hv.tearSafe ht H.length (Nat.le_refl _) (Nat.le_refl _)
    simpa using this
  have alone : ∀ k, ∃ L, Reads (s₁.activeFile.synced ++ s₁.activeFile.written.take k) L ∧
        L.flatten.Sublist H.flatten ∧ (mode.tears = true → TearSafe H.flatten L.flatten) := by
    intro k
    by_cases ht : mode.tears = true
    · have hleaves : s₁.spareFile.Leaves [] := by
        rw [hinv.single (Mode.rotates_of_tears ht)]
        exact .kept 0
      exact view [] k hleaves
    · obtain ⟨L, hL, hsub⟩ := hinv.reads_active k
      exact ⟨L, hL, hsub, fun h => absurd h ht⟩
  rcases hE with rfl | hE
  · rcases hA with rfl | ⟨k, rfl⟩ | rfl
    · exact ⟨[], reads_nil, hsub₀, htear₀⟩
    · exact alone k
    · obtain ⟨L, hL, -⟩ := alone s₁.activeFile.written.length
      rw [List.take_length] at hL
      exact ⟨[], reads_checkpoint hL _, hsub₀, htear₀⟩
  · rcases hA with rfl | ⟨k, rfl⟩ | rfl
    · obtain ⟨L, hL, hsub⟩ := hinv.readsPart_spareLeft (Or.inr hE)
      rw [List.append_nil]
      refine ⟨L, hL, hsub, fun ht => ?_⟩
      rw [hinv.single (Mode.rotates_of_tears ht)] at hE
      have hnil := SegmentFile.leaves_settled hE
      rw [hnil] at hL
      rw [hL.unique reads_nil]
      exact htear₀ ht
    · exact view E k hE
    · obtain ⟨L, hL, -⟩ := view E s₁.activeFile.written.length hE
      rw [List.take_length, ← List.append_assoc] at hL
      have := reads_checkpoint hL s₁.wal.nextLsn
      exact ⟨[], by simpa only [List.append_assoc] using this, hsub₀, htear₀⟩

theorem LogInv.sorted_left (hE : SpareLeft s₁ E) (hA : ActiveLeft s₁ A)
    (hlsn : s₁.wal.nextLsn + 1 < 2 ^ 64) :
    Sorted (E ++ A) ∧ ∀ r ∈ E ++ A, r.lsn + 1 < 2 ^ 64 ∧ Readable r.kind := by
  have whole : ∀ E, s₁.spareFile.Leaves E →
      Sorted (E ++ s₁.activeFile.synced ++ s₁.activeFile.written ++
          [⟨s₁.wal.nextLsn, .checkpoint⟩]) ∧
        ∀ r ∈ E ++ s₁.activeFile.synced ++ s₁.activeFile.written ++
          [⟨s₁.wal.nextLsn, .checkpoint⟩], r.lsn + 1 < 2 ^ 64 ∧ Readable r.kind := by
    intro E hE
    obtain ⟨L, hv⟩ := hinv.views E hE
    refine ⟨sorted_concat hv.sorted hv.below, fun r hr => ?_⟩
    rcases List.mem_append.mp hr with hr | hr
    · have := hv.below r hr
      exact ⟨by omega, hv.readable r hr⟩
    · rw [List.mem_singleton] at hr
      rw [hr]
      exact ⟨hlsn, trivial⟩
  have sub : ∀ {xs ys : List WalRecord}, xs.Sublist ys →
      (Sorted ys ∧ ∀ r ∈ ys, r.lsn + 1 < 2 ^ 64 ∧ Readable r.kind) →
      Sorted xs ∧ ∀ r ∈ xs, r.lsn + 1 < 2 ^ 64 ∧ Readable r.kind := fun hs h =>
    ⟨List.Pairwise.sublist hs h.1, fun r hr => h.2 r (hs.subset hr)⟩
  have activeSub : A.Sublist (s₁.activeFile.synced ++ s₁.activeFile.written ++
      [⟨s₁.wal.nextLsn, .checkpoint⟩]) := by
    rcases hA with rfl | ⟨k, rfl⟩ | rfl
    · exact List.nil_sublist _
    · exact ((List.Sublist.refl _).append (List.take_sublist _ _)).trans
        (List.sublist_append_left _ _)
    · exact List.Sublist.refl _
  rcases hE with rfl | hE
  · refine sub ?_ (whole _ (.kept 0))
    rw [List.nil_append]
    refine activeSub.trans ?_
    simp only [List.append_assoc]
    exact ((List.sublist_append_right _ _).trans (List.sublist_append_right _ _))
  · refine sub ?_ (whole E hE)
    have := (List.Sublist.refl E).append activeSub
    simpa only [List.append_assoc] using this

end

/-- What is left of segment `i`. -/
def Left (s₁ : DurableStore) (i : Fin 2) (records : List WalRecord) : Prop :=
  if i = s₁.wal.active then ActiveLeft s₁ records else SpareLeft s₁ records

theorem left_nil (s₁ : DurableStore) (i : Fin 2) : Left s₁ i [] := by
  unfold Left
  split
  · exact Or.inl rfl
  · exact Or.inl rfl

/-- A checkpoint of `s₁` has synced the data file and is somewhere between the
checkpoint record and the end of the seals. -/
structure Sealing (s₁ s : DurableStore) : Prop where
  rest : ∃ wal, s = { s₁ with wal := wal }
  active : s.wal.active = s₁.wal.active
  nextLsn : s.wal.nextLsn = s₁.wal.nextLsn + 1
  left : ∀ i records, (s.wal.segments i).file.Leaves records → Left s₁ i records
  live : ∀ i, (s.wal.segments i).endOffset = 0 → (s.wal.segments i).file = {}

variable {s₁ s : DurableStore}

/-- **From the data sync on**, a power failure loses nothing. -/
theorem Sealing.keeps (h : Sealing s₁ s) (hinv : LogInv mode H H.length [] s₁)
    (hset : Settled mode H.flatten s₁.data) (hlsn : s₁.wal.nextLsn + 1 < 2 ^ 64) :
    Keeps mode H.given H.length s.disk := by
  obtain ⟨wal, rfl⟩ := h.rest
  intro d' hd
  have hne := s₁.wal.spare_ne_active
  obtain ⟨E, hE, hspare⟩ := hd.segments s₁.wal.spare
  obtain ⟨A, hA, hactive⟩ := hd.segments s₁.wal.active
  have hEl : SpareLeft s₁ E := by
    have := h.left _ E hE
    rwa [Left, if_neg hne] at this
  have hAl : ActiveLeft s₁ A := by
    have := h.left _ A hA
    rwa [Left, if_pos rfl] at this
  obtain ⟨hsorted, hbound⟩ := hinv.sorted_left hEl hAl hlsn
  obtain ⟨L, hpair⟩ := @pairOk_of_settled mode _ _ _ hsorted hbound
    (hinv.readsPart_spareLeft hEl) (hinv.readsPart_activeLeft hAl) (hinv.reads_left hEl hAl)
    (fun hr => by
      rcases hEl with rfl | hEl
      · rfl
      · rw [hinv.single hr] at hEl
        simpa using SegmentFile.leaves_settled hEl)
  refine ⟨H, ⟨H.length, Nat.le_refl _, by simp, by simp [List.take_of_length_le]⟩, hinv.proper,
    hinv.lsn_bound, hinv.slots.narrow hd.slots hd.pageCount, s₁.wal.spare, E, A, L, hspare,
    ?_, hpair,
    (hset.covered hpair.sub).narrow hd.slots⟩
  have : (1 : Fin 2) - s₁.wal.spare = s₁.wal.active := by
    unfold Wal.spare
    generalize s₁.wal.active = i
    revert i; decide
  rw [this]; exact hactive

theorem take_concat_cases {α : Type} (xs : List α) (x : α) (k : Nat) :
    (xs ++ [x]).take k = xs.take k ∨ (xs ++ [x]).take k = xs ++ [x] := by
  by_cases h : k ≤ xs.length
  · exact Or.inl (List.take_append_of_le_length h)
  · exact Or.inr (List.take_of_length_le (by simp; omega))

/-- A segment that counts as empty is. -/
theorem LogInv.spareFile_eq {b : List CommittedWrite} (h : LogInv mode H n b s)
    (hend : (s.wal.segments s.wal.spare).endOffset = 0) (hf : s.checkpointInFlight = false) :
    s.spareFile = {} := by
  have hnil : ∀ E, s.spareFile.Leaves E → E = [] := by
    intro E hE
    apply Classical.byContradiction
    intro hne
    have := h.spareLive E hE hne
    omega
  have hsynced := hnil _ (.kept 0)
  have hwritten := hnil _ (.kept s.spareFile.written.length)
  have hstop : s.spareFile.stopped = false := by
    cases hs : s.spareFile.stopped with
    | false => rfl
    | true => rw [h.stopped hs] at hf; cases hf
  simp only [List.take_zero, List.append_nil] at hsynced
  simp only [List.take_length, List.append_eq_nil_iff] at hwritten
  generalize s.spareFile = file at *
  cases file
  simp_all

/-- The checkpoint record. -/
theorem sealing_push (hinv : LogInv mode H H.length [] s₁) (hf : s₁.checkpointInFlight = false) :
    Sealing s₁ (s₁.push .checkpoint) := by
  have hother : ∀ i, i ≠ s₁.wal.active → (s₁.push .checkpoint).wal.segments i =
      s₁.wal.segments i := fun i hi => Function.update_of_ne hi _ _
  have hself : (s₁.push .checkpoint).wal.segments s₁.wal.active =
      ⟨s₁.activeFile.append ⟨s₁.wal.nextLsn, .checkpoint⟩,
        (s₁.wal.segments s₁.wal.active).endOffset + WalKind.checkpoint.recordLength⟩ := by
    simp [DurableStore.push, Wal.push, DurableStore.activeFile]
  refine ⟨⟨_, rfl⟩, rfl, rfl, fun i records hl => ?_, fun i hi => ?_⟩
  · by_cases hia : i = s₁.wal.active
    · subst hia
      rw [hself] at hl
      rw [Left, if_pos rfl]
      obtain ⟨k, rfl⟩ := @SegmentFile.leaves_of_open _
        (s₁.activeFile.append ⟨s₁.wal.nextLsn, .checkpoint⟩) hinv.open_ hl
      rcases take_concat_cases s₁.activeFile.written ⟨s₁.wal.nextLsn, .checkpoint⟩ k with h | h
      · exact Or.inr (Or.inl ⟨k, congrArg _ h⟩)
      · refine Or.inr (Or.inr ?_)
        rw [List.append_assoc]
        exact congrArg _ h
    · rw [hother i hia] at hl
      rw [Left, if_neg hia]
      obtain rfl : i = s₁.wal.spare := (s₁.wal.eq_active_or_spare i).resolve_left hia
      exact Or.inr hl
  · by_cases hia : i = s₁.wal.active
    · subst hia
      rw [hself] at hi
      have := WalKind.checkpoint.recordLength_pos
      simp only at hi
      omega
    · rw [hother i hia] at hi ⊢
      obtain rfl : i = s₁.wal.spare := (s₁.wal.eq_active_or_spare i).resolve_left hia
      exact hinv.spareFile_eq hi hf

/-- An action on segment `i` that leaves nothing new in it. -/
theorem Sealing.onSegment (h : Sealing s₁ s) (i : Fin 2) (f : Segment → Segment)
    (hleft : ∀ records, (f (s.wal.segments i)).file.Leaves records → Left s₁ i records)
    (hlive : (f (s.wal.segments i)).endOffset = 0 → (f (s.wal.segments i)).file = {}) :
    Sealing s₁ (onWal (fun w => w.onSegment i f) s) := by
  obtain ⟨wal, rfl⟩ := h.rest
  refine ⟨⟨_, rfl⟩, h.active, h.nextLsn, fun j records hl => ?_, fun j hj => ?_⟩
  · by_cases hji : j = i
    · subst hji
      simp only [onWal, Wal.onSegment_segments_self] at hl
      exact hleft records hl
    · simp only [onWal, Wal.onSegment_segments_of_ne _ _ hji] at hl
      exact h.left j records hl
  · by_cases hji : j = i
    · subst hji
      simp only [onWal, Wal.onSegment_segments_self] at hj ⊢
      exact hlive hj
    · simp only [onWal, Wal.onSegment_segments_of_ne _ _ hji] at hj ⊢
      exact h.live j hj

/-- The sync behind the checkpoint record. -/
theorem Sealing.synced (h : Sealing s₁ (s₁.push .checkpoint)) (ho : s₁.activeFile.stopped = false) :
    Sealing s₁ (s₁.push .checkpoint).synced := by
  have hself : (s₁.push .checkpoint).wal.segments s₁.wal.active =
      ⟨s₁.activeFile.append ⟨s₁.wal.nextLsn, .checkpoint⟩,
        (s₁.wal.segments s₁.wal.active).endOffset + WalKind.checkpoint.recordLength⟩ := by
    simp [DurableStore.push, Wal.push, DurableStore.activeFile]
  have hfile : (s₁.activeFile.append ⟨s₁.wal.nextLsn, .checkpoint⟩).sync =
      { synced := s₁.activeFile.synced ++ s₁.activeFile.written ++
          [⟨s₁.wal.nextLsn, .checkpoint⟩] } := by
    simp [SegmentFile.sync, SegmentFile.append, SegmentFile.stored, ho]
  refine h.onSegment s₁.wal.active _ (fun records hl => ?_) fun hzero => ?_
  · rw [hself] at hl
    simp only [hfile] at hl
    rw [SegmentFile.leaves_settled hl, Left, if_pos rfl]
    exact Or.inr (Or.inr rfl)
  · rw [hself] at hzero
    have := WalKind.checkpoint.recordLength_pos
    simp only at hzero
    omega

/-! ## the programs -/

variable {C : Disk → Prop} {E : StorageError → DurableStore → Prop}

/-- `seal_file` and `Segment::seal_and_sync`: segment `i` ends up empty. -/
theorem sealAndSync_meets (hC : ∀ s, Sealing s₁ s → C s.disk) (i : Fin 2)
    {files : Fin 2 → SegmentFile} :
    Meets (fun s => Sealing s₁ s ∧ 0 < (s.wal.segments i).endOffset ∧
        ∀ j, j ≠ i → (s.wal.segments j).file = files j) (sealAndSync i)
      (fun _ s => Sealing s₁ s ∧ (s.wal.segments i).file = {} ∧
        ∀ j, j ≠ i → (s.wal.segments j).file = files j) E C := by
  have hframe : ∀ (s : DurableStore) (f : Segment → Segment) (j : Fin 2), j ≠ i →
      (onWal (fun w => w.onSegment i f) s).wal.segments j = s.wal.segments j :=
    fun s f j hj => Wal.onSegment_segments_of_ne _ _ hj
  have hself : ∀ (s : DurableStore) (f : Segment → Segment),
      (onWal (fun w => w.onSegment i f) s).wal.segments i = f (s.wal.segments i) :=
    fun s f => Wal.onSegment_segments_self _ _ _
  unfold sealAndSync sealFile
  refine Meets.bind (Q := fun _ s => Sealing s₁ s ∧ (s.wal.segments i).file = {} ∧
    ∀ j, j ≠ i → (s.wal.segments j).file = files j) ?_ fun _ => Meets.update ?_
  · refine Meets.bind (Q := fun _ s => Sealing s₁ s ∧ (s.wal.segments i).file.stopped = true ∧
      ∀ j, j ≠ i → (s.wal.segments j).file = files j) (Meets.issue ?_) fun _ => Meets.issue ?_
    · rintro s ⟨h, hlive, hfiles⟩
      have hs : Sealing s₁ (onWal (fun w => w.onSegment i fun seg =>
          { seg with file := seg.file.stop }) s) := by
        refine h.onSegment i _ (fun records hl => ?_) fun hzero => absurd hzero hlive.ne'
        cases hl with
        | kept k => exact h.left i _ (.kept k)
        | stopped _ => exact left_nil s₁ i
      refine ⟨hC _ hs, hs, by rw [hself]; rfl, fun j hj => ?_⟩
      rw [hframe s _ j hj]
      exact hfiles j hj
    · rintro s ⟨h, hstop, hfiles⟩
      have hfile : (s.wal.segments i).file.sync = {} := by
        simp [SegmentFile.sync, SegmentFile.stored, hstop]
      have hs : Sealing s₁ (onWal (fun w => w.onSegment i fun seg =>
          { seg with file := seg.file.sync }) s) := by
        refine h.onSegment i _ (fun records hl => ?_) fun _ => hfile
        simp only [hfile] at hl
        rw [show records = [] by simpa using SegmentFile.leaves_settled hl]
        exact left_nil s₁ i
      exact ⟨hC _ hs, hs, by rw [hself]; exact hfile,
        fun j hj => by rw [hframe s _ j hj]; exact hfiles j hj⟩
  · rintro s ⟨h, hfile, hfiles⟩
    refine ⟨h.onSegment i _ (fun records hl => h.left i records hl) fun _ => hfile,
      by rw [hself]; exact hfile, fun j hj => by rw [hframe s _ j hj]; exact hfiles j hj⟩

theorem resetSegment_meets (hC : ∀ s, Sealing s₁ s → C s.disk) (i : Fin 2)
    (files : Fin 2 → SegmentFile) :
    Meets (fun s => Sealing s₁ s ∧ ∀ j, j ≠ i → (s.wal.segments j).file = files j) (resetSegment i)
      (fun _ s => Sealing s₁ s ∧ (s.wal.segments i).file = {} ∧
        ∀ j, j ≠ i → (s.wal.segments j).file = files j) E C := by
  unfold resetSegment
  refine Meets.bind (Q := fun wal s => (Sealing s₁ s ∧
    ∀ j, j ≠ i → (s.wal.segments j).file = files j) ∧ wal = s.wal)
    (Meets.read fun s hs => ⟨hs, rfl⟩) fun wal => Meets.when (fun hpos => ?_) fun hzero => ?_
  · refine (sealAndSync_meets hC i).pre ?_
    rintro s ⟨⟨h, hfiles⟩, rfl⟩
    exact ⟨h, by simpa using hpos, hfiles⟩
  · rintro s ⟨⟨h, hfiles⟩, rfl⟩
    exact ⟨h, h.live i (by simpa using hzero), hfiles⟩

/-- `Wal::reset_after_checkpoint`: both segments end up empty. -/
theorem resetAfterCheckpoint_meets (hC : ∀ s, Sealing s₁ s → C s.disk) :
    Meets (Sealing s₁) resetAfterCheckpoint
      (fun _ s => Sealing s₁ s ∧ (∀ i, (s.wal.segments i).file = {}) ∧ s.wal.retired = none)
      E C := by
  unfold resetAfterCheckpoint
  refine Meets.of_state fun s hs => ?_
  refine Meets.bind ((resetSegment_meets hC 0 fun j => (s.wal.segments j).file).pre ?_)
    fun _ => ?_
  · rintro _ rfl
    exact ⟨hs, fun _ _ => rfl⟩
  refine Meets.bind ((resetSegment_meets hC 1 fun _ => {}).pre ?_) fun _ =>
    Meets.update ?_
  · rintro s' ⟨h, hfile, -⟩
    refine ⟨h, fun j hj => ?_⟩
    obtain rfl : j = 0 := by omega
    exact hfile
  · rintro s' ⟨h, hfile, hfiles⟩
    obtain ⟨wal, rfl⟩ := h.rest
    refine ⟨⟨⟨_, rfl⟩, h.active, h.nextLsn, h.left, h.live⟩, fun i => ?_, rfl⟩
    by_cases hi : i = 1
    · subst hi; exact hfile
    · exact hfiles i hi

/-- An empty log over a data file that holds the history. -/
theorem inv_of_reset (hlog : LogInv mode H H.length [] s₁) (hset : Settled mode H.flatten s₁.data)
    (hlsn : s₁.wal.nextLsn + 1 < 2 ^ 64) (h : Sealing s₁ s)
    (hfiles : ∀ i, (s.wal.segments i).file = {})
    (hflushed : ∀ (id : PageId) (page : Page), s₁.dirty[id]? = some page →
      s₁.flushed[id]? = some page.lsn) :
    Inv mode H H.length { s with
      dirty := s.dirty.filter fun id page => decide (s.flushed[id]? ≠ some page.lsn)
      flushed := ∅ } := by
  obtain ⟨wal, rfl⟩ := h.rest
  have hnext : wal.nextLsn = s₁.wal.nextLsn + 1 := h.nextLsn
  have hnil : ∀ {E : List WalRecord}, SegmentFile.Leaves {} E → E = [] := fun hE =>
    SegmentFile.leaves_settled hE
  have hempty : ∀ id : PageId, (s₁.dirty.filter fun id page =>
      decide (s₁.flushed[id]? ≠ some page.lsn))[id]? = none := by
    intro id
    rw [Std.TreeMap.getElem?_filter']
    cases hd : s₁.dirty[id]? with
    | none => rfl
    | some page => simp [hflushed id page hd]
  have htail : Tail H H.length [] [] [] [] := tail_of_reads reads_nil (List.nil_sublist _)
  have hfiles' : ∀ i, (wal.segments i).file = {} := hfiles
  constructor
  · refine ⟨hlog.proper, hlog.ordered, fun w hw => ?_, ?_, Nat.le_refl _, hlog.slots, ?_, ?_, ?_,
      ⟨[], ?_⟩, fun E hE => ⟨[], ?_⟩, ?_, ?_, ?_, ?_⟩
    · have := hlog.below w hw
      simp only [hnext]; omega
    · simp only [hnext]; exact hlsn
    · simp only [DurableStore.activeFile, hfiles']
    · simp only [DurableStore.activeFile, hfiles']; simp
    · simp
    · simp only [DurableStore.activeFile, hfiles']; exact htail
    · simp only [DurableStore.spareFile, hfiles'] at hE
      obtain rfl := hnil hE
      refine ⟨?_, ?_, ?_, ?_, ?_, ?_, [], reads_nil, List.nil_sublist _⟩
      · simp only [DurableStore.activeFile, hfiles']; exact htail
      · rw [List.take_length]
        exact hset.covered (List.nil_sublist _)
      · intro _ m hm hm' id hne
        rw [Nat.le_antisymm hm' hm, List.take_length, List.drop_length] at hne
        exact absurd rfl hne
      · simp only [DurableStore.activeFile, hfiles']; exact List.Pairwise.nil
      · simp only [DurableStore.activeFile, hfiles']; simp
      · simp only [DurableStore.activeFile, hfiles']; simp
    · intro E hE hne
      simp only [DurableStore.spareFile, hfiles'] at hE
      exact absurd (hnil hE) hne
    · simp only [DurableStore.activeFile, hfiles']
      exact fun hne => absurd rfl hne
    · intro _
      simp only [DurableStore.spareFile, hfiles']
    · simp only [DurableStore.spareFile, hfiles']
      exact fun hs => by cases hs
  · refine ⟨fun id page hd => ?_, fun id _ => hset id _ (Slot.leaves_current _ _),
      fun id lsn hl => ?_, fun id page hd => ?_, fun _ id hd => ?_⟩
    · simp only [hempty] at hd; cases hd
    · simp at hl
    · simp only [hempty] at hd; cases hd
    · simp only [hempty] at hd; exact absurd rfl hd

/-- With an empty queue and no page open, every dirty page is in the data file. -/
theorem MemInv.all_flushed {G : List CommittedWrite} (h : MemInv mode G [] s)
    (hq : s.flushQueue = []) (ho : s.openPages = ∅) :
    (∀ (id : PageId) (page : Page), s.dirty[id]? = some page → s.flushed[id]? = some page.lsn) ∧
      ∀ id, Holds (s.data.slot id).current (imageOf (onPage id G)) := by
  have hflushed : ∀ (id : PageId) (page : Page), s.dirty[id]? = some page →
      s.flushed[id]? = some page.lsn := by
    intro id page hd
    rcases h.queued id page hd with hin | hin | hin | hin
    · rw [hq] at hin; cases hin
    · rw [ho] at hin; simp at hin
    · exact hin
    · cases hin
  refine ⟨hflushed, fun id => ?_⟩
  cases hd : s.dirty[id]? with
  | none => exact h.clean id hd
  | some page =>
    rw [(h.flushed id page.lsn (hflushed id page hd)).2 page hd rfl, (h.dirty id page hd).2]
    exact Holds.page rfl

/-- **`checkpoint_inner`** moves the whole history into the data file and empties
the log; it can only fail for want of room in the log. -/
theorem checkpointInner_meets {s₀ : DurableStore} (hinv : Inv mode H H.length s₀)
    (hf : s₀.checkpointInFlight = false) (order : HashOrder) :
    Meets (fun s => s = s₀) (checkpointInner order)
      (fun _ s => Inv mode H H.length s ∧ (∀ i, (s.wal.segments i).file = {}) ∧
        s.wal.retired = none ∧ s.checkpointInFlight = false)
      (fun _ s => Inv mode H H.length s ∧ ¬ s₀.HasRoom .checkpoint ∧
        s.checkpointInFlight = false ∧ s.spareFile = s₀.spareFile)
      (Keeps mode H.given H.length) := by
  unfold checkpointInner
  refine Meets.bind (Q := fun _ s => Inv mode H H.length s ∧ s.checkpointInFlight = false ∧
    s.openPages = ∅ ∧ s.wal = s₀.wal) (Meets.update ?_) fun _ => ?_
  · rintro s rfl
    refine ⟨⟨hinv.log.congr rfl rfl rfl rfl fun _ h => h, { hinv.mem with
      queued := fun id page hd => ?_ }⟩, hf, rfl, rfl⟩
    rcases hinv.mem.queued id page hd with hin | hin | hin | hin
    · exact Or.inl (List.mem_append_left _ hin)
    · refine Or.inl (List.mem_append_right _ ?_)
      rw [(order.perm _).mem_iff, Std.TreeSet.mem_toList]
      exact hin
    · exact Or.inr (Or.inr (Or.inl hin))
    · cases hin
  refine Meets.bind (Q := fun turns s => (Inv mode H H.length s ∧ s.checkpointInFlight = false ∧
    s.openPages = ∅ ∧ s.wal = s₀.wal) ∧ turns = s.flushQueue.length + 1)
    (Meets.read fun s hs => ⟨hs, rfl⟩) fun turns => ?_
  refine Meets.bind (Q := fun _ s => Inv mode H H.length s ∧ s.checkpointInFlight = false ∧
      s.wal = s₀.wal ∧ s.flushQueue = [] ∧ s.openPages = ∅) (Meets.of_state ?_) fun _ => ?_
  · rintro s ⟨⟨hi, hfs, ho, hw⟩, hturns⟩
    refine ((flushLoop_meets turns hi hfs (by omega)).conseq (fun _ h => h) ?_
      (fun _ _ h => h.elim) (fun _ h => h))
    rintro _ s' ⟨hi', hfr, hq⟩
    exact ⟨hi', hfr.inFlight.trans hfs, hfr.wal.trans hw, hq, hfr.openPages.trans ho⟩
  -- the data sync: from here on the data file holds the history
  refine Meets.bind (Q := fun _ s => Inv mode H H.length s ∧ s.checkpointInFlight = false ∧
      s.wal = s₀.wal ∧ Settled mode H.flatten s.data ∧
      ∀ (id : PageId) (page : Page), s.dirty[id]? = some page → s.flushed[id]? = some page.lsn)
    (Meets.issue ?_) fun _ => Meets.of_state ?_
  · rintro s ⟨hi, hfs, hw, hq, ho⟩
    obtain ⟨hflushed, hholds⟩ := hi.mem.all_flushed hq ho
    have hlog := hi.log.sync_data
    refine ⟨hlog.keeps (List.prefix_refl _), ⟨hlog, { hi.mem with
      clean := fun id hd => ?_, flushed := fun id lsn hl => ?_ }⟩, hfs, hw, settled_sync hholds,
      hflushed⟩
    · simp only [DataFile.slot_sync, Slot.current_sync]
      exact hi.mem.clean id hd
    · simp only [DataFile.slot_sync, Slot.current_sync]
      exact hi.mem.flushed id lsn hl
  rintro s₁ ⟨hi, hfs, hw, hset, hflushed⟩
  refine Meets.bind (Q := fun _ s => Sealing s₁ s ∧ s₁.wal.nextLsn + 1 < 2 ^ 64 ∧
    s = s₁.push .checkpoint) (append_meets _ ?_ ?_) fun lsn => ?_
  · rintro s rfl hlsn
    have hs := sealing_push hi.log hfs
    exact ⟨hs.keeps hi.log hset hlsn, hs, hlsn, rfl⟩
  · rintro s e rfl hroom
    have hroom' : ¬ s₀.HasRoom .checkpoint := by
      rw [HasRoom, ← hw]; exact hroom
    have hspare : s.spareFile = s₀.spareFile := by
      unfold DurableStore.spareFile
      rw [hw]
    exact ⟨⟨hi, hroom', hfs, hspare⟩, fun hlsn => ⟨⟨hi.log.skip hlsn,
      hi.mem.congr rfl rfl rfl rfl rfl fun _ hl => hl⟩, hroom', hfs, hspare⟩⟩
  refine Meets.assuming (p := s₁.wal.nextLsn + 1 < 2 ^ 64) (fun s h => h.2.1) fun hlsn => ?_
  have hC : ∀ s, Sealing s₁ s → Keeps mode H.given H.length s.disk := fun s hs =>
    hs.keeps hi.log hset hlsn
  refine Meets.bind (Q := fun _ => Sealing s₁) (syncWal_meets ?_) fun _ => ?_
  · rintro s ⟨hs, -, rfl⟩
    have hs' := hs.synced hi.log.open_
    exact ⟨hC _ hs', hs'⟩
  refine Meets.bind (resetAfterCheckpoint_meets hC) fun _ => ?_
  refine Meets.bind (Q := fun _ s => Inv mode H H.length s ∧
    (∀ i, (s.wal.segments i).file = {}) ∧ s.wal.retired = none ∧ s.checkpointInFlight = false)
    (Meets.update ?_) fun _ => Meets.pure fun s hs => hs
  rintro s ⟨hs, hfiles, hret⟩
  refine ⟨inv_of_reset hi.log hset hlsn hs hfiles hflushed, hfiles, hret, ?_⟩
  obtain ⟨wal, rfl⟩ := hs.rest
  exact hfs

end QuantaDb
