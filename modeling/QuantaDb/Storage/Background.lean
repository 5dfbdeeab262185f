import QuantaDb.Storage.Calls

/-!
# QuantaDb.Storage.Background

Background checkpoints: the log is rotated, the pages that were dirty at that
moment are written to the data file beside running batches, and then the retired
segment is sealed.

`Inv` alone says that the two segments together hold what the data file lacks.
It survives the rotation if every batch is durable (`begin_meets`).  Sealing the
retired segment needs more: the active segment alone must rebuild every page.
That is `JobInv`, and an append to a page the checkpoint has listed and not read
yet can break it (`Exposed`).
-/

namespace QuantaDb

open Redo Crash DurableStore

variable {mode : Mode} {H : History} {n : Nat}

/-! ## rotation -/

namespace DurableStore

/-- The store after `begin_background_checkpoint`. -/
def rotated (s : DurableStore) : DurableStore :=
  { onWal (fun w => { w with retired := some w.active, active := w.spare }) s with
    checkpointInFlight := true }

/-- The pages that are dirty, with their LSNs. -/
def dirtyList (order : HashOrder) (s : DurableStore) : List (PageId × Nat) :=
  (order.walk s.dirty.keys).filterMap fun id => s.dirty[id]?.map fun page => (id, page.lsn)

/-- `begin_background_checkpoint` rotates the log and lists the dirty pages; it
makes no I/O call, and changes nothing where it is refused. -/
theorem begin_meets (s₀ : DurableStore) (order : HashOrder) :
    Meets (fun s => s = s₀) (beginBackgroundCheckpoint order)
      (fun job s => s₀.wal.canRotate = true ∧ s₀.checkpointInFlight = false ∧ s = s₀.rotated ∧
        job = { manifest := s₀.dirtyList order, retired := s₀.wal.active,
                boundaryLsn := s₀.wal.nextLsn })
      (fun _ s => s = s₀) (fun _ => False) := by
  unfold beginBackgroundCheckpoint
  refine Meets.bind (refuseIfPoisoned_meets (R := fun s => s = s₀) (fun s hs _ => hs)
    fun s hs _ => hs) fun _ => ?_
  refine Meets.bind (Q := fun inFlight s => s = s₀ ∧ inFlight = s₀.checkpointInFlight)
    (Meets.read fun s hs => ⟨hs, by rw [hs]⟩) fun inFlight => ?_
  refine Meets.ite (fun _ => Meets.fail fun _ hs => hs.1) fun hidle => ?_
  refine Meets.assuming (p := s₀.checkpointInFlight = false) ?_ fun hf => ?_
  · rintro s ⟨-, rfl⟩
    simpa using hidle
  refine Meets.bind (Q := fun boundary s => s₀.wal.canRotate = true ∧
    s = onWal (fun w => { w with retired := some w.active, active := w.spare }) s₀ ∧
    boundary = s₀.wal.nextLsn) ?_ fun boundary => ?_
  · unfold rotate
    refine Meets.bind (Q := fun wal s => s = s₀ ∧ wal = s₀.wal) (Meets.read ?_) fun wal => ?_
    · rintro s ⟨rfl, -⟩
      exact ⟨rfl, rfl⟩
    refine Meets.ite (fun hrot => ?_) fun _ => Meets.fail fun _ hs => hs.1
    refine Meets.bind (Q := fun _ s => s₀.wal.canRotate = true ∧
      s = onWal (fun w => { w with retired := some w.active, active := w.spare }) s₀ ∧
      wal = s₀.wal) (Meets.update ?_) fun _ => Meets.pure ?_
    · rintro s ⟨rfl, rfl⟩
      exact ⟨hrot, rfl, rfl⟩
    · rintro s ⟨hrot, rfl, rfl⟩
      exact ⟨hrot, rfl, rfl⟩
  refine Meets.bind (Q := fun manifest s => (s₀.wal.canRotate = true ∧
    s = onWal (fun w => { w with retired := some w.active, active := w.spare }) s₀ ∧
    boundary = s₀.wal.nextLsn) ∧ manifest = s₀.dirtyList order) (Meets.read ?_) fun manifest => ?_
  · rintro s ⟨hrot, rfl, hb⟩
    exact ⟨⟨hrot, rfl, hb⟩, rfl⟩
  refine Meets.bind (Q := fun _ s => s₀.wal.canRotate = true ∧ s = s₀.rotated ∧
    boundary = s₀.wal.nextLsn ∧ manifest = s₀.dirtyList order) (Meets.update ?_) fun _ => ?_
  · rintro s ⟨⟨hrot, rfl, hb⟩, hm⟩
    exact ⟨hrot, rfl, hb, hm⟩
  refine Meets.bind (Q := fun retired s => s₀.wal.canRotate = true ∧ s = s₀.rotated ∧
    boundary = s₀.wal.nextLsn ∧ manifest = s₀.dirtyList order ∧ retired = some s₀.wal.active)
    (Meets.read ?_) fun retired => ?_
  · rintro s ⟨hrot, rfl, hb, hm⟩
    exact ⟨hrot, rfl, hb, hm, rfl⟩
  cases retired with
  | none => exact Meets.fail fun _ hs => by cases hs.2.2.2.2
  | some retired =>
    refine Meets.pure ?_
    rintro s ⟨hrot, rfl, rfl, rfl, hret⟩
    cases hret
    exact ⟨hrot, hf, rfl, rfl⟩

theorem spare_rotated (s : DurableStore) : s.rotated.wal.spare = s.wal.active := by
  simp only [rotated, onWal, Wal.spare]
  generalize s.wal.active = i
  revert i; decide

theorem activeFile_rotated (s : DurableStore) : s.rotated.activeFile = s.spareFile := rfl

theorem spareFile_rotated (s : DurableStore) : s.rotated.spareFile = s.activeFile := by
  unfold spareFile activeFile
  rw [spare_rotated]
  rfl

end DurableStore

/-- **Rotation** keeps the invariant when every batch is durable. -/
theorem Inv.rotated {s : DurableStore} (h : Inv mode H H.length s) (hmode : mode.rotates = true)
    (hrot : s.wal.canRotate = true) (hidle : s.checkpointInFlight = false) :
    Inv mode H H.length s.rotated := by
  have htears : mode.tears = false := by
    cases ht : mode.tears with
    | false => rfl
    | true => rw [Mode.rotates_of_tears ht] at hmode; cases hmode
  have hempty : s.spareFile = {} := by
    simp only [Wal.canRotate, Bool.and_eq_true, beq_iff_eq] at hrot
    exact h.log.spareFile_eq hrot.2 hidle
  have hactive : s.rotated.activeFile = {} := (activeFile_rotated s).trans hempty
  have hnil : s.spareFile.Leaves [] := by
    rw [hempty]
    exact .kept 0
  obtain ⟨L, hv⟩ := h.log.views [] hnil
  have hlen : ∀ w ∈ (H.drop H.length).flatten ++ ([] : List CommittedWrite), False := by simp
  constructor
  · refine ⟨h.log.proper, h.log.ordered, h.log.below, h.log.bound, Nat.le_refl _, h.log.slots, ?_,
      ?_, fun w hw => (hlen w hw).elim, ⟨[], ?_⟩, fun E hE => ⟨L, ?_⟩, fun E hE hne => ?_,
      ?_, ?_, ?_⟩
    · rw [hactive]
    · rw [hactive]; simp
    · rw [hactive]
      exact tail_of_reads reads_nil (List.nil_sublist _)
    · rw [spareFile_rotated] at hE
      obtain ⟨k, rfl⟩ := SegmentFile.leaves_of_open h.log.open_ hE
      have hreads := hv.tail.reads_cut h.log.noCheckpoint k
      rw [List.nil_append] at hreads
      have hsub := hv.tail.sub
      rw [List.take_length] at hsub
      have hcut : (s.activeFile.synced ++ s.activeFile.written.take k).Sublist
          ([] ++ s.activeFile.synced ++ s.activeFile.written) := by
        rw [List.nil_append]
        exact (List.Sublist.refl _).append (List.take_sublist _ _)
      refine ⟨?_, hv.covered, fun ht => ?_, ?_, ?_, ?_, L, hreads, hv.tail.sub⟩
      · rw [hactive]
        simpa using tail_of_reads hreads hsub
      · rw [htears] at ht; cases ht
      · rw [hactive]
        have hsorted : Sorted (s.activeFile.synced ++ s.activeFile.written.take k) :=
          List.Pairwise.sublist hcut hv.sorted
        simpa using hsorted
      · rw [hactive]
        intro r hr
        exact hv.below r (hcut.subset (by simpa using hr))
      · rw [hactive]
        intro r hr
        exact hv.readable r (hcut.subset (by simpa using hr))
    · rw [spareFile_rotated] at hE
      obtain ⟨k, rfl⟩ := SegmentFile.leaves_of_open h.log.open_ hE
      have hrec : s.activeFile.stored ≠ [] := by
        simp only [SegmentFile.stored, h.log.open_, Bool.false_eq_true, if_false]
        intro hnil
        rw [List.append_eq_nil_iff] at hnil
        exact hne (by rw [hnil.1, hnil.2]; simp)
      have hpos := h.log.activeLive hrec
      rw [spare_rotated]
      exact hpos
    · rw [hactive]
      exact fun hne => absurd rfl hne
    · intro hr
      rw [hmode] at hr; cases hr
    · exact fun _ => rfl
  · exact ⟨h.mem.dirty, h.mem.clean, h.mem.flushed, h.mem.queued, fun ht => by
      rw [htears] at ht; cases ht⟩

/-! ## the state of a background checkpoint -/

/-- The log, if `E` is what is left of the segment that is not active, rebuilds
the page from the image. -/
def LogRebuilds (H : History) (s : DurableStore) (E : List WalRecord) (id : PageId) (img : Image) :
    Prop :=
  ∀ L, Reads (E ++ s.activeFile.synced ++ s.activeFile.written) L →
    Rebuilds id H.flatten L.flatten img

/-- A page that the checkpoint has read and not written yet. -/
structure Captured (H : History) (s : DurableStore) (q : Page) : Prop where
  placeable : Placeable q.id
  rebuilds : ∀ E, (E = [] ∨ s.spareFile.Leaves E) → LogRebuilds H s E q.id (some q.stamped)
  covered : covers (imageOf (onPage q.id H.flatten)) q.lsn = true
  dirty : ∃ page, s.dirty[q.id]? = some page ∧ (page.lsn = q.lsn → page = q)
  flushed : ∀ lsn, s.flushed[q.id]? = some lsn → lsn ≤ q.lsn

/-- Once the data file is synced, the active segment alone rebuilds every page;
before that, every page it does not rebuild is still to be written. -/
structure JobInv (mode : Mode) (H : History) (s : DurableStore) (job : BackgroundCheckpoint) :
    Prop where
  inFlight : s.checkpointInFlight = true
  retired : s.wal.retired = some job.retired
  spare : job.retired = s.wal.spare
  nodup : (job.written.map Prod.fst ++ (job.chunk.map Page.id ++ job.manifest.map Prod.fst)).Nodup
  chunk : ∀ q ∈ job.chunk, Captured H s q
  written : ∀ entry ∈ job.written,
    covers (imageOf (onPage entry.1 H.flatten)) entry.2 = true ∧
      ∀ page, s.dirty[entry.1]? = some page → page.lsn = entry.2 →
        (s.data.slot entry.1).current = some (.page page)
  pages : job.phase = .writing → ∀ id, (∃ q ∈ job.chunk, q.id = id) ∨
    (∃ page, s.dirty[id]? = some page ∧ (id, page.lsn) ∈ job.manifest) ∨
      LogRebuilds H s [] id (stampOf (s.data.slot id).current)
  covered : job.phase ≠ .writing → ∀ L,
    Reads (s.activeFile.synced ++ s.activeFile.written) L → Covered mode H.flatten L.flatten s.data
  drained : job.phase ≠ .writing → job.chunk = []
  sealed : job.phase = .sealed → s.spareFile = {}
  stopped : job.phase = .stopped → s.spareFile.stopped = true

section

variable {s s₀ : DurableStore} {bs : History} {job : BackgroundCheckpoint}

variable {b : List CommittedWrite} {id : PageId}

/-- The image of a page is older than the LSN counter. -/
theorem LogInv.lt_nextLsn (h : LogInv mode H n b s) {lsn : Nat}
    (hc : covers (imageOf (onPage id H.flatten)) lsn = true) : lsn < s.wal.nextLsn := by
  cases himg : imageOf (onPage id H.flatten) with
  | none => rw [himg] at hc; cases hc
  | some img =>
    obtain ⟨w, hw, hlsn⟩ := exists_mem_lsn_eq himg
    have := h.below w (List.mem_append_left _ (mem_onPage.mp hw).1)
    rw [himg, covers_some, decide_eq_true_eq] at hc
    omega

/-- So is the page in the data file. -/
theorem LogInv.current_not_covers (h : LogInv mode H n b s) {lsn : Nat} (hl : s.wal.nextLsn ≤ lsn) :
    covers (stampOf (s.data.slot id).current) lsn = false := by
  obtain ⟨L, hv⟩ := h.views _ (.kept 0)
  refine (hv.covered id _ (Slot.leaves_current _ _)).1.not_covers fun w hw => ?_
  have hmem := (take_flatten_sublist H n).subset (mem_onPage.mp hw).1
  exact Nat.lt_of_lt_of_le (h.below w (List.mem_append_left _ hmem)) hl

theorem covers_append {lsn : Nat} (h : covers (imageOf (onPage id H.flatten)) lsn = true) :
    covers (imageOf (onPage id (H ++ bs).flatten)) lsn = true := by
  rw [List.flatten_append, onPage_append, imageOf, latest_append, covers_redo, h, Bool.true_or]

/-- A page that a batch has touched carries a new LSN. -/
theorem Frame.fresh_lsn (hf : Frame s₀ bs s) (hinv : Inv mode (H ++ bs) n s) {page : Page}
    (hd : s.dirty[id]? = some page) (hne : onPage id bs.flatten ≠ []) :
    s₀.wal.nextLsn ≤ page.lsn := by
  obtain ⟨w, hw⟩ := List.exists_mem_of_ne_nil _ hne
  have hmem : w ∈ onPage id (H ++ bs).flatten := by
    rw [List.flatten_append, onPage_append]
    exact List.mem_append_right _ hw
  have hcov : covers (imageOf (onPage id (H ++ bs).flatten)) w.lsn = true :=
    covers_latest_of_mem hmem
  rw [(hinv.mem.dirty id page hd).2, covers_some, decide_eq_true_eq] at hcov
  exact Nat.le_trans (hf.lsns w (mem_onPage.mp hw).1) hcov

theorem LogRebuilds.frame {E : List WalRecord} {img : Image} (h : LogRebuilds H s₀ E id img)
    (hlog : LogInv mode H n b s₀) (hE : E = [] ∨ s₀.spareFile.Leaves E) (hf : Frame s₀ bs s) :
    LogRebuilds (H ++ bs) s E id img := by
  obtain ⟨La, ha⟩ := hlog.tail_of_left hE
  obtain ⟨pending, hall, -⟩ := ha.all
  intro L hL
  rw [hL.unique (hf.reads E _ hE ⟨pending, hall⟩), List.flatten_append, List.flatten_append]
  simp only [Rebuilds, onPage_append]
  exact (h _ ⟨pending, hall⟩).append _

theorem Captured.frame {q : Page} (h : Captured H s₀ q) (hinv₀ : Inv mode H n s₀)
    (hinv : Inv mode (H ++ bs) m s) (hf : Frame s₀ bs s) : Captured (H ++ bs) s q := by
  refine ⟨h.placeable, fun E hE => ?_, covers_append h.covered, ?_, hf.flushed ▸ h.flushed⟩
  · rw [hf.spareFile] at hE
    exact (h.rebuilds E hE).frame hinv₀.log hE hf
  · obtain ⟨page, hd, heq⟩ := h.dirty
    by_cases hne : onPage q.id bs.flatten = []
    · exact ⟨page, (hf.dirty q.id hne).trans hd, heq⟩
    · obtain ⟨page', hd'⟩ := Option.ne_none_iff_exists'.mp (hf.stays q.id (by rw [hd]; simp))
      have hnew := hf.fresh_lsn hinv hd' hne
      have hold := hinv₀.log.lt_nextLsn h.covered
      exact ⟨page', hd', fun heq' => by omega⟩

/-- **A batch beside a running checkpoint** keeps its invariant, if no append goes
to a page the checkpoint has yet to read. -/
theorem JobInv.frame (h : JobInv mode H s₀ job) (hinv₀ : Inv mode H n s₀)
    (hinv : Inv mode (H ++ bs) m s) (hf : Frame s₀ bs s)
    (hsafe : ∀ id, job.Exposes s₀ id → onPage id bs.flatten = [] ∨
      ∃ w ∈ bs.flatten, w.pageId = id ∧ w.appendAt = none) : JobInv mode (H ++ bs) s job := by
  have hspare : s.wal.spare = s₀.wal.spare := by unfold Wal.spare; rw [hf.active]
  obtain ⟨La, ha⟩ := hinv₀.log.alone
  obtain ⟨pending, hall, -⟩ := ha.all
  have hLa : Reads (s.activeFile.synced ++ s.activeFile.written) (La ++ H.drop n ++ bs) :=
    hf.reads [] _ (Or.inl rfl) ⟨pending, hall⟩
  refine ⟨hf.inFlight.trans h.inFlight, hf.retired.trans h.retired, h.spare.trans hspare.symm,
    h.nodup, fun q hq => (h.chunk q hq).frame hinv₀ hinv hf, fun entry he => ?_,
    fun hp id => ?_, fun hp L hL => ?_, h.drained, fun hp => hf.spareFile.trans (h.sealed hp),
    fun hp => by rw [hf.spareFile]; exact h.stopped hp⟩
  · obtain ⟨hcov, hcur⟩ := h.written entry he
    refine ⟨covers_append hcov, fun page hd hlsn => ?_⟩
    rw [hf.data]
    by_cases hne : onPage entry.1 bs.flatten = []
    · exact hcur page ((hf.dirty _ hne).symm.trans hd) hlsn
    · have hnew := hf.fresh_lsn hinv hd hne
      have hold := hinv₀.log.lt_nextLsn hcov
      omega
  · rw [hf.data]
    rcases h.pages hp id with hq | ⟨page, hd, hm⟩ | hreb
    · exact Or.inl hq
    · by_cases hne : onPage id bs.flatten = []
      · exact Or.inr (Or.inl ⟨page, (hf.dirty id hne).trans hd, hm⟩)
      refine Or.inr (Or.inr ?_)
      by_cases hcur : (s₀.data.slot id).current = some (.page page)
      · -- the data file already holds the page as the checkpoint found it
        have himg := (hinv₀.mem.dirty id page hd).2
        have hreb : LogRebuilds H s₀ [] id (stampOf (s₀.data.slot id).current) := by
          intro L hL
          rw [hcur, stampOf_page, ← himg]
          refine Redo.Rebuilds.of_latest (onPage_sublist ?_ id)
          rw [List.nil_append] at hL
          rw [hL.unique ⟨pending, hall⟩]
          exact ha.flatten_sublist
        exact hreb.frame hinv₀.log (Or.inl rfl) hf
      · rcases hsafe id ⟨page, hd, hm, hcur⟩ with hnil | ⟨w, hw, hid, habs⟩
        · exact absurd hnil hne
        · intro L hL
          rw [List.nil_append] at hL
          rw [hL.unique hLa, List.flatten_append, List.flatten_append]
          simp only [Rebuilds, onPage_append]
          exact Redo.Rebuilds.of_absolute (onPage_sublist ha.flatten_sublist id)
            (mem_onPage.mpr ⟨hw, hid⟩) (CommittedWrite.absolute_of_image habs)
            (hinv₀.log.current_not_covers (hf.lsns w hw))
    · exact Or.inr (Or.inr (hreb.frame hinv₀.log (Or.inl rfl) hf))
  · rw [hL.unique hLa, hf.data, List.flatten_append, List.flatten_append]
    exact (h.covered hp _ ⟨pending, hall⟩).append _

end

/-! ## the steps of the checkpointer -/

theorem map_fst_filterMap_sublist {α β : Type} (g : α → Option β) (ids : List α) :
    ((ids.filterMap fun id => (g id).map fun b => (id, b)).map Prod.fst).Sublist ids := by
  induction ids with
  | nil => exact List.Sublist.slnil
  | cons id ids ih =>
    cases hg : g id with
    | none => simp only [List.filterMap_cons, hg, Option.map_none]; exact ih.cons id
    | some b => simp only [List.filterMap_cons, hg, Option.map_some]; exact ih.cons_cons id

theorem mem_dirtyList {order : HashOrder} {s : DurableStore} {id : PageId} {page : Page}
    (h : s.dirty[id]? = some page) : (id, page.lsn) ∈ s.dirtyList order := by
  refine List.mem_filterMap.mpr ⟨id, ?_, by rw [h]; rfl⟩
  rw [(order.perm _).mem_iff, Std.TreeMap.mem_keys, Std.TreeMap.mem_iff_isSome_getElem?, h]
  rfl

theorem dirtyList_ids (order : HashOrder) (s : DurableStore) :
    ((s.dirtyList order).map Prod.fst).Sublist (order.walk s.dirty.keys) := by
  have := map_fst_filterMap_sublist (fun id => s.dirty[id]?.map Page.lsn)
    (order.walk s.dirty.keys)
  simp only [Option.map_map] at this
  exact this

/-- The checkpoint starts. -/
theorem JobInv.begin {s : DurableStore} (h : Inv mode H H.length s)
    (hrot : s.wal.canRotate = true) (hidle : s.checkpointInFlight = false) (order : HashOrder) :
    JobInv mode H s.rotated { manifest := s.dirtyList order, retired := s.wal.active,
                              boundaryLsn := s.wal.nextLsn } := by
  have hempty : s.spareFile = {} := by
    simp only [Wal.canRotate, Bool.and_eq_true, beq_iff_eq] at hrot
    exact h.log.spareFile_eq hrot.2 hidle
  refine ⟨rfl, rfl, (spare_rotated s).symm, ?_, by simp, by simp, fun _ id => ?_,
    fun hp => absurd rfl hp, fun hp => absurd rfl hp, (fun hp => by cases hp),
    (fun hp => by cases hp)⟩
  · have hkeys : (order.walk s.dirty.keys).Nodup :=
      (order.perm _).nodup_iff.mpr Std.TreeMap.nodup_keys
    simpa using hkeys.sublist (dirtyList_ids order s)
  · right
    cases hd : s.dirty[id]? with
    | some page => exact Or.inl ⟨page, hd, mem_dirtyList hd⟩
    | none =>
      right
      intro L hL
      rw [activeFile_rotated, hempty] at hL
      rw [hL.unique reads_nil, show (s.rotated.data.slot id).current = (s.data.slot id).current
        from rfl, (h.mem.clean id hd).2]
      exact Redo.Rebuilds.of_latest (List.nil_sublist _)

theorem mem_readChunk {dirty : Std.TreeMap PageId Page} {entries : List (PageId × Nat)} {q : Page} :
    q ∈ readChunk dirty entries ↔ ∃ id, (id, q.lsn) ∈ entries ∧ dirty[id]? = some q := by
  simp only [readChunk, List.mem_filterMap, Prod.exists]
  constructor
  · rintro ⟨id, lsn, he, hq⟩
    obtain ⟨hd, hl⟩ := Option.filter_eq_some_iff.mp hq
    rw [beq_iff_eq] at hl
    exact ⟨id, hl ▸ he, hd⟩
  · rintro ⟨id, he, hd⟩
    exact ⟨id, q.lsn, he, by rw [hd]; simp⟩

/-- A chunk holds each page of its entries at most once, in their order. -/
theorem readChunk_ids {dirty : Std.TreeMap PageId Page}
    (hid : ∀ (id : PageId) (page : Page), dirty[id]? = some page → page.id = id)
    (entries : List (PageId × Nat)) :
    ((readChunk dirty entries).map Page.id).Sublist (entries.map Prod.fst) := by
  induction entries with
  | nil => exact List.Sublist.slnil
  | cons entry entries ih =>
    unfold readChunk at ih ⊢
    simp only [List.filterMap_cons, List.map_cons]
    cases hq : dirty[entry.1]?.filter fun page => page.lsn == entry.2 with
    | none => exact ih.cons entry.1
    | some q =>
      have hqid := hid entry.1 q (Option.filter_eq_some_iff.mp hq).1
      simp only [List.map_cons, hqid]
      exact ih.cons_cons entry.1

section

variable {s : DurableStore} {job : BackgroundCheckpoint}

/-- A dirty page, as the checkpointer reads it. -/
theorem captured_of_dirty (h : Inv mode H n s) {q : Page} (hd : s.dirty[q.id]? = some q) :
    Captured H s q := by
  obtain ⟨-, himg⟩ := h.mem.dirty q.id q hd
  refine ⟨placeable_of_image h.log.proper himg, fun E hE L hL => ?_, ?_, ⟨q, hd, fun _ => rfl⟩,
    fun lsn hl => ?_⟩
  · obtain ⟨La, ha⟩ := h.log.tail_of_left hE
    obtain ⟨pending, hall, -⟩ := ha.all
    rw [← himg, hL.unique ⟨pending, hall⟩]
    exact Redo.Rebuilds.of_latest (onPage_sublist ha.flatten_sublist q.id)
  · rw [himg]; simp [Page.stamped]
  · have hcov := (h.mem.flushed q.id lsn hl).1
    rw [himg, covers_some, decide_eq_true_eq] at hcov
    exact hcov

/-- The next chunk is read. -/
theorem JobInv.read (h : JobInv mode H s job) (hinv : Inv mode H n s) (hp : job.phase = .writing)
    (hc : job.chunk = []) :
    JobInv mode H s { job with
      manifest := job.manifest.drop chunkSize
      chunk := readChunk s.dirty (job.manifest.take chunkSize) } := by
  have hid : ∀ (id : PageId) (page : Page), s.dirty[id]? = some page → page.id = id :=
    fun id page hd => (hinv.mem.dirty id page hd).1
  refine { h with
    nodup := ?_
    chunk := fun q hq => ?_
    pages := fun _ id => ?_
    drained := fun hne => absurd hp hne }
  · have hnodup := h.nodup
    rw [hc, List.map_nil, List.nil_append] at hnodup
    refine hnodup.sublist ((List.Sublist.refl _).append ?_)
    rw [← List.take_append_drop chunkSize job.manifest, List.map_append]
    simp only [List.take_append_drop]
    exact (readChunk_ids hid _).append (List.Sublist.refl _)
  · obtain ⟨id, -, hd⟩ := mem_readChunk.mp hq
    have := hid id q hd
    subst this
    exact captured_of_dirty hinv hd
  · rcases h.pages hp id with ⟨q, hq, -⟩ | ⟨page, hd, hm⟩ | hreb
    · rw [hc] at hq; cases hq
    · rw [← List.take_append_drop chunkSize job.manifest, List.mem_append] at hm
      rcases hm with hm | hm
      · exact Or.inl ⟨page, mem_readChunk.mpr ⟨id, hm, hd⟩, hid id page hd⟩
      · exact Or.inr (Or.inl ⟨page, hd, hm⟩)
    · exact Or.inr (Or.inr hreb)

theorem Mode.not_tears_of_rotates (h : mode.rotates = true) : mode.tears = false := by
  cases mode <;> simp_all [Mode.tears, Mode.rotates]

/-- A captured page goes to the data file. -/
theorem Inv.write_captured (hinv : Inv mode H H.length s) (hmode : mode.rotates = true) {q : Page}
    (hq : Captured H s q) : Inv mode H H.length { s with data := s.data.write q } := by
  have htears := Mode.not_tears_of_rotates hmode
  obtain ⟨page, hd, heq⟩ := hq.dirty
  constructor
  · refine hinv.log.write_data hq.placeable fun E L hE hv => ⟨?_, fun ht => ?_⟩
    · obtain ⟨pending, hall, -⟩ := hv.tail.all
      rw [List.drop_length, List.append_nil] at hall
      rw [List.take_length]
      exact hq.rebuilds E (Or.inr hE) L ⟨pending, hall⟩
    · rw [htears] at ht; cases ht
  · refine ⟨hinv.mem.dirty, fun id hnone => ?_, fun id lsn hl => ?_, hinv.mem.queued, fun ht => ?_⟩
    · have hne : q.id ≠ id := by
        rintro rfl
        rw [hd] at hnone; cases hnone
      simp only [DataFile.slot_write_of_ne _ hne]
      exact hinv.mem.clean id hnone
    · obtain ⟨hcov, hcur⟩ := hinv.mem.flushed id lsn hl
      refine ⟨hcov, fun page' hd' hlsn => ?_⟩
      by_cases hne : q.id = id
      · -- what was flushed before the rotation is not newer than the captured page
        subst hne
        have hle := hq.flushed lsn hl
        have hge := hq.covered
        rw [hd] at hd'
        cases hd'
        rw [(hinv.mem.dirty q.id page hd).2, covers_some, decide_eq_true_eq] at hge
        simp only [Page.stamped] at hge
        rw [heq (by omega)]
        simp
      · simp only [DataFile.slot_write_of_ne _ hne]
        exact hcur page' hd' hlsn
    · rw [htears] at ht; cases ht

theorem JobInv.write {q : Page} {rest : List Page} (h : JobInv mode H s job)
    (hp : job.phase = .writing) (hc : job.chunk = q :: rest) :
    JobInv mode H { s with data := s.data.write q } { job with
      chunk := rest, written := job.written ++ [(q.id, q.lsn)] } := by
  have hq := h.chunk q (by rw [hc]; exact List.mem_cons_self)
  have hnodup := h.nodup
  rw [hc] at hnodup
  refine ⟨h.inFlight, h.retired, h.spare, by simpa using hnodup, fun q' hq' => ?_,
    fun entry he => ?_, fun _ id => ?_, fun hne => absurd hp hne, fun hne => absurd hp hne,
    h.sealed,
    h.stopped⟩
  · have hcap := h.chunk q' (by rw [hc]; exact List.mem_cons_of_mem q hq')
    exact ⟨hcap.placeable, hcap.rebuilds, hcap.covered, hcap.dirty, hcap.flushed⟩
  · rcases List.mem_append.mp he with he | he
    · obtain ⟨hcov, hcur⟩ := h.written entry he
      refine ⟨hcov, fun page hd hl => ?_⟩
      have hne : q.id ≠ entry.1 := by
        intro heq
        have := (List.nodup_append.mp hnodup).2.2 entry.1 (List.mem_map_of_mem he) q.id (by simp)
        exact this heq.symm
      simp only [DataFile.slot_write_of_ne _ hne]
      exact hcur page hd hl
    · rw [List.mem_singleton] at he
      subst he
      refine ⟨hq.covered, fun page hd hl => ?_⟩
      obtain ⟨page', hd', heq⟩ := hq.dirty
      rw [show page = page' from Option.some.inj (hd.symm.trans hd')] at hl ⊢
      rw [heq hl]
      simp
  · have hself : LogRebuilds H { s with data := s.data.write q } [] q.id
        (stampOf ((s.data.write q).slot q.id).current) := by
      rw [DataFile.slot_write_self, Slot.current_write, stampOf_page]
      exact hq.rebuilds [] (Or.inl rfl)
    by_cases hid : q.id = id
    · exact Or.inr (Or.inr (hid ▸ hself))
    rcases h.pages hp id with ⟨q', hq', hid'⟩ | hm | hreb
    · rw [hc] at hq'
      rcases List.mem_cons.mp hq' with rfl | hq'
      · exact absurd hid' hid
      · exact Or.inl ⟨q', hq', hid'⟩
    · exact Or.inr (Or.inl hm)
    · refine Or.inr (Or.inr ?_)
      simp only [DataFile.slot_write_of_ne _ hid]
      exact hreb

/-- The data file is synced: from here on the active segment rebuilds every page. -/
theorem JobInv.sync (h : JobInv mode H s job) (hinv : Inv mode H n s) (hmode : mode.rotates = true)
    (hp : job.phase = .writing) (hc : job.chunk = []) (hm : job.manifest = []) :
    JobInv mode H { s with data := s.data.sync } { job with phase := .dataSynced } := by
  refine ⟨h.inFlight, h.retired, h.spare, h.nodup, fun q hq => ?_, fun entry he => ?_,
    (fun hw => by cases hw), fun _ L hL id image hl => ?_, fun _ => hc, (fun hw => by cases hw),
    (fun hw => by cases hw)⟩
  · rw [hc] at hq; cases hq
  · simp only [DataFile.slot_sync, Slot.current_sync]
    exact h.written entry he
  · rw [DataFile.slot_sync] at hl
    rw [Slot.leaves_sync hl]
    rcases h.pages hp id with ⟨q, hq, -⟩ | ⟨page, -, hmem⟩ | hreb
    · rw [hc] at hq; cases hq
    · rw [hm] at hmem; cases hmem
    · refine ⟨hreb L hL, fun reason hr => ?_⟩
      have hleaves := Slot.leaves_current mode.tears (s.data.slot id)
      rw [hr] at hleaves
      exact absurd hleaves (hinv.log.slots.intact (Mode.not_tears_of_rotates hmode) id reason)

/-- Only the segment that is not active changes. -/
theorem activeFile_onSpare (s : DurableStore) (f : Segment → Segment) :
    (onWal (fun w => w.onSegment s.wal.spare f) s).activeFile = s.activeFile := by
  simp only [DurableStore.activeFile, onWal, Wal.onSegment,
    Function.update_of_ne s.wal.spare_ne_active.symm]

theorem spareSegment_onSpare (s : DurableStore) (f : Segment → Segment) :
    (onWal (fun w => w.onSegment s.wal.spare f) s).wal.segments
      (onWal (fun w => w.onSegment s.wal.spare f) s).wal.spare =
        f (s.wal.segments s.wal.spare) := by
  simp [onWal, Wal.spare, Wal.onSegment]

/-- The segment that is not active may lose what the active one makes up for. -/
theorem Inv.onSpare (h : Inv mode H H.length s) (hmode : mode.rotates = true)
    (f : Segment → Segment)
    (hleft : ∀ E, (f (s.wal.segments s.wal.spare)).file.Leaves E → s.spareFile.Leaves E ∨
      (E = [] ∧ ∀ L, Reads (s.activeFile.synced ++ s.activeFile.written) L →
        Covered mode H.flatten L.flatten s.data))
    (hlive : ∀ E, (f (s.wal.segments s.wal.spare)).file.Leaves E → E ≠ [] →
      0 < (f (s.wal.segments s.wal.spare)).endOffset)
    (hstop : (f (s.wal.segments s.wal.spare)).file.stopped = true → s.checkpointInFlight = true) :
    Inv mode H H.length (onWal (fun w => w.onSegment s.wal.spare f) s) := by
  have htears := Mode.not_tears_of_rotates hmode
  have hactive := activeFile_onSpare s f
  have hspare := spareSegment_onSpare s f
  generalize hs' : onWal (fun w => w.onSegment s.wal.spare f) s = s' at hactive hspare ⊢
  have hfile : s'.spareFile = (f (s.wal.segments s.wal.spare)).file := congrArg Segment.file hspare
  have hact : s'.wal.segments s'.wal.active = s.wal.segments s.wal.active := by
    rw [← hs']
    simp only [onWal, Wal.onSegment, Function.update_of_ne s.wal.spare_ne_active.symm]
  have hnext : s'.wal.nextLsn = s.wal.nextLsn := by rw [← hs']; rfl
  have hdata : s'.data = s.data := by rw [← hs']; rfl
  have hview : ∀ {E L}, View mode H H.length [] s E L → View mode H H.length [] s' E L := by
    intro E L hv
    refine ⟨?_, ?_, hv.tearSafe, ?_, ?_, ?_, hv.earlier⟩
    · rw [hactive]; exact hv.tail
    · rw [hdata]; exact hv.covered
    · rw [hactive]; exact hv.sorted
    · rw [hactive, hnext]; exact hv.below
    · rw [hactive]; exact hv.readable
  constructor
  · refine ⟨h.log.proper, h.log.ordered, ?_, ?_, Nat.le_refl _, ?_, ?_, ?_, ?_, ?_, fun E hE => ?_,
      fun E hE hne => ?_, ?_, fun hr => ?_, fun hst => ?_⟩
    · rw [hnext]; exact h.log.below
    · rw [hnext]; exact h.log.bound
    · rw [hdata]; exact h.log.slots
    · rw [hactive]; exact h.log.open_
    · rw [hactive]; exact h.log.noCheckpoint
    · rw [hactive]; exact h.log.fresh
    · rw [hactive]; exact h.log.alone
    · rw [hfile] at hE
      rcases hleft E hE with hE' | ⟨rfl, hcov⟩
      · obtain ⟨L, hv⟩ := h.log.views E hE'
        exact ⟨L, hview hv⟩
      · obtain ⟨La, ha⟩ := h.log.alone
        obtain ⟨E₀, hE₀⟩ : ∃ E₀, s.spareFile.Leaves E₀ := ⟨_, .kept 0⟩
        obtain ⟨L₀, hv₀⟩ := h.log.views E₀ hE₀
        obtain ⟨pending, hall, -⟩ := ha.all
        rw [List.drop_length, List.append_nil] at hall
        have hsub : ([] ++ s.activeFile.synced ++ s.activeFile.written).Sublist
            (E₀ ++ s.activeFile.synced ++ s.activeFile.written) := by simp
        refine ⟨La, hview ⟨by simpa using ha, ?_, fun ht => ?_, ?_, ?_, ?_, [], reads_nil,
          List.nil_sublist _⟩⟩
        · rw [List.take_length]; exact hcov La ⟨pending, hall⟩
        · rw [htears] at ht; cases ht
        · exact List.Pairwise.sublist hsub hv₀.sorted
        · exact fun r hr => hv₀.below r (hsub.subset hr)
        · exact fun r hr => hv₀.readable r (hsub.subset hr)
    · rw [hspare]
      rw [hfile] at hE
      exact hlive E hE hne
    · rw [hactive, hact]; exact h.log.activeLive
    · rw [hmode] at hr; cases hr
    · rw [hfile] at hst
      rw [← hs']
      exact hstop hst
  · rw [← hs']
    exact h.mem.congr rfl rfl rfl rfl rfl fun id hl => by
      simpa only [DurableStore.Logged, activeFile_onSpare] using hl

theorem JobInv.onSpare (h : JobInv mode H s job) (f : Segment → Segment) (phase : RunPhase)
    (hp : job.phase ≠ .writing) (hp' : phase ≠ .writing)
    (hsealed : phase = .sealed → (f (s.wal.segments s.wal.spare)).file = {})
    (hstopped : phase = .stopped → (f (s.wal.segments s.wal.spare)).file.stopped = true) :
    JobInv mode H (onWal (fun w => w.onSegment s.wal.spare f) s) { job with phase := phase } := by
  have hfile : (onWal (fun w => w.onSegment s.wal.spare f) s).spareFile =
      (f (s.wal.segments s.wal.spare)).file := congrArg Segment.file (spareSegment_onSpare s f)
  refine ⟨h.inFlight, h.retired, h.spare, h.nodup, fun q hq => ?_, h.written,
    fun hw => absurd hw hp', fun _ => ?_, fun _ => h.drained hp, ?_, ?_⟩
  · rw [show job.chunk = [] from h.drained hp] at hq; cases hq
  · rw [activeFile_onSpare]; exact h.covered hp
  · rw [hfile]; exact hsealed
  · rw [hfile]; exact hstopped

/-- **One step of the checkpointer** keeps both invariants; whatever power failure
comes during it leaves the whole history. -/
theorem runStep_meets {s₀ : DurableStore} (hinv : Inv mode H H.length s₀)
    (hmode : mode.rotates = true) (hjob : JobInv mode H s₀ job) :
    Meets (fun s => s = s₀) (runStep job)
      (fun job' s => Inv mode H H.length s ∧ JobInv mode H s job')
      (fun _ _ => False) (Keeps mode H.given H.length) := by
  have hkeeps : ∀ {s}, Inv mode H H.length s → Keeps mode H.given H.length s.disk := fun h =>
    h.log.keeps (List.prefix_refl _)
  unfold runStep
  cases hp : job.phase with
  | writing =>
    simp only
    cases hc : job.chunk with
    | cons q rest =>
      have hq := hjob.chunk q (by rw [hc]; exact List.mem_cons_self)
      have hinv' := hinv.write_captured hmode hq
      simp only
      refine Meets.bind (Q := fun _ s => s = { s₀ with data := s₀.data.write q })
        (writeData_meets (fun _ _ => hq.placeable) ?_) fun _ => Meets.pure ?_
      · rintro s rfl
        exact ⟨hkeeps hinv', rfl⟩
      · rintro s rfl
        exact ⟨hinv', hp ▸ hjob.write hp hc⟩
    | nil =>
      cases hm : job.manifest with
      | nil =>
        have hinv' : Inv mode H H.length { s₀ with data := s₀.data.sync } := by
          refine ⟨hinv.log.sync_data, { hinv.mem with clean := ?_, flushed := ?_ }⟩
          · simpa only [DataFile.slot_sync, Slot.current_sync] using hinv.mem.clean
          · simpa only [DataFile.slot_sync, Slot.current_sync] using hinv.mem.flushed
        refine Meets.bind (Q := fun _ s => s = { s₀ with data := s₀.data.sync })
          (Meets.issue ?_) fun _ => Meets.pure ?_
        · rintro s rfl
          exact ⟨hkeeps hinv', rfl⟩
        · rintro s rfl
          have := hjob.sync hinv hmode hp hc hm
          rw [hc, hm] at this
          exact ⟨hinv', this⟩
      | cons entry entries =>
        refine Meets.bind (Q := fun dirty s => s = s₀ ∧ dirty = s₀.dirty)
          (Meets.read ?_) fun dirty => Meets.pure ?_
        · rintro s rfl
          exact ⟨rfl, rfl⟩
        · rintro s ⟨rfl, rfl⟩
          have := hjob.read hinv hp hc
          rw [hm] at this
          exact ⟨hinv, hp ▸ this⟩
  | dataSynced =>
    have hne : job.phase ≠ .writing := by rw [hp]; simp
    have hinv' := hinv.onSpare hmode (fun seg => { seg with file := seg.file.stop })
      (fun E hE => ?_) (fun E hE hne => ?_) fun _ => hjob.inFlight
    · have hjob' := hjob.onSpare (fun seg => { seg with file := seg.file.stop })
        .stopped hne (by simp) (by simp) fun _ => rfl
      refine Meets.bind (Q := fun _ s => Inv mode H H.length s ∧
        JobInv mode H s { job with phase := .stopped }) (Meets.issue ?_) fun _ =>
          Meets.pure fun _ h => h
      rintro s rfl
      rw [← hjob.spare] at hinv' hjob'
      exact ⟨hkeeps hinv', hinv', hjob'⟩
    · cases hE with
      | kept count => exact Or.inl (.kept count)
      | stopped => exact Or.inr ⟨rfl, hjob.covered hne⟩
    · cases hE with
      | kept count => exact hinv.log.spareLive _ (.kept count) hne
      | stopped => exact absurd rfl hne
  | stopped =>
    have hne : job.phase ≠ .writing := by rw [hp]; simp
    have hstop := hjob.stopped hp
    have hfile : s₀.spareFile.sync = {} := by
      simp [SegmentFile.sync, SegmentFile.stored, hstop]
    have hnil : ∀ E, s₀.spareFile.sync.Leaves E → E = [] := fun E hE => by
      rw [hfile] at hE
      exact SegmentFile.leaves_settled hE
    have hinv' := hinv.onSpare hmode (fun seg => { seg with file := seg.file.sync })
      (fun E hE => ?_) (fun E hE hne => absurd (hnil E hE) hne) fun _ => hjob.inFlight
    · have hjob' := hjob.onSpare (fun seg => { seg with file := seg.file.sync })
        .sealed hne (by simp) (fun _ => hfile) (by simp)
      refine Meets.bind (Q := fun _ s => Inv mode H H.length s ∧
        JobInv mode H s { job with phase := .sealed }) (Meets.issue ?_) fun _ =>
          Meets.pure fun _ h => h
      rintro s rfl
      rw [← hjob.spare] at hinv' hjob'
      exact ⟨hkeeps hinv', hinv', hjob'⟩
    · rw [hnil E hE]
      exact Or.inl (.stopped hstop)
  | sealed =>
    refine Meets.pure ?_
    rintro s rfl
    exact ⟨hinv, hjob⟩

/-! ## completion -/

/-- A page leaves the dirty table if the data file holds it. -/
theorem Inv.forget_entry (h : Inv mode H n s) {entry : PageId × Nat}
    (hcur : ∀ page, s.dirty[entry.1]? = some page → page.lsn = entry.2 →
      (s.data.slot entry.1).current = some (.page page)) :
    Inv mode H n (forgetWritten s entry) := by
  have hdirty : ∀ (id : PageId) (page : Page), (forgetWritten s entry).dirty[id]? = some page →
      s.dirty[id]? = some page ∧ ¬ (id = entry.1 ∧ page.lsn = entry.2) := by
    intro id page hd
    simp only [DurableStore.forgetWritten] at hd
    by_cases hm : (s.dirty[entry.1]?.any fun page => page.lsn == entry.2) = true
    · rw [if_pos hm, getElem?_erase_page] at hd
      split at hd
      · cases hd
      · next hne => exact ⟨hd, fun h => hne h.1.symm⟩
    · rw [if_neg hm] at hd
      refine ⟨hd, fun ⟨hid, hl⟩ => hm ?_⟩
      rw [← hid, hd]
      simpa using hl
  have hgone : ∀ id : PageId, (forgetWritten s entry).dirty[id]? = none → s.dirty[id]? = none ∨
      ∃ page, id = entry.1 ∧ s.dirty[id]? = some page ∧ page.lsn = entry.2 := by
    intro id hd
    simp only [DurableStore.forgetWritten] at hd
    by_cases hm : (s.dirty[entry.1]?.any fun page => page.lsn == entry.2) = true
    · rw [if_pos hm, getElem?_erase_page] at hd
      split at hd
      · next heq =>
        cases hp : s.dirty[entry.1]? with
        | none => rw [hp] at hm; cases hm
        | some page =>
          rw [hp, Option.any_some, beq_iff_eq] at hm
          exact Or.inr ⟨page, heq.symm, heq ▸ hp, hm⟩
      · exact Or.inl hd
    · rw [if_neg hm] at hd
      exact Or.inl hd
  have hflushed : ∀ (id : PageId) (lsn : Nat), s.flushed[id]? = some lsn →
      ¬ (id = entry.1 ∧ lsn = entry.2) → (forgetWritten s entry).flushed[id]? = some lsn := by
    intro id lsn hl hne
    simp only [DurableStore.forgetWritten]
    split
    · next hm =>
      rw [getElem?_erase_page, if_neg, hl]
      rintro rfl
      rw [hl] at hm
      exact hne ⟨rfl, Option.some.inj hm⟩
    · exact hl
  have hkept : ∀ (id : PageId) (lsn : Nat), (forgetWritten s entry).flushed[id]? = some lsn →
      s.flushed[id]? = some lsn := by
    intro id lsn hl
    simp only [DurableStore.forgetWritten] at hl
    split at hl
    · rw [getElem?_erase_page] at hl
      split at hl
      · cases hl
      · exact hl
    · exact hl
  refine ⟨h.log.congr rfl rfl rfl rfl fun _ h => h, fun id page hd => h.mem.dirty id page
    (hdirty id page hd).1, fun id hd => ?_, fun id lsn hl => ?_, fun id page hd => ?_,
    fun ht id hd => ?_⟩
  · rcases hgone id hd with hd | ⟨page, rfl, hd, hl⟩
    · exact h.mem.clean id hd
    · show Holds (s.data.slot _).current _
      rw [hcur page hd hl, (h.mem.dirty _ page hd).2]
      exact Holds.page rfl
  · obtain ⟨hcov, hpage⟩ := h.mem.flushed id lsn (hkept id lsn hl)
    exact ⟨hcov, fun page hd => hpage page (hdirty id page hd).1⟩
  · obtain ⟨hd', hne⟩ := hdirty id page hd
    rcases h.mem.queued id page hd' with hin | hin | hin | hin
    · exact Or.inl hin
    · exact Or.inr (Or.inl hin)
    · exact Or.inr (Or.inr (Or.inl (hflushed id page.lsn hin hne)))
    · cases hin
  · obtain ⟨page, hp⟩ := Option.ne_none_iff_exists'.mp hd
    exact h.mem.logged ht id (by rw [(hdirty id page hp).1]; simp)

/-- The entries a checkpoint has written leave the tables one by one. -/
theorem Inv.forgetAll (entries : List (PageId × Nat)) (h : Inv mode H n s)
    (hcur : ∀ entry ∈ entries, ∀ page, s.dirty[entry.1]? = some page → page.lsn = entry.2 →
      (s.data.slot entry.1).current = some (.page page)) :
    Inv mode H n (entries.foldl DurableStore.forgetWritten s) ∧
      (entries.foldl DurableStore.forgetWritten s).wal = s.wal := by
  induction entries generalizing s with
  | nil => exact ⟨h, rfl⟩
  | cons entry entries ih =>
    refine ih (h.forget_entry (hcur entry List.mem_cons_self)) fun e he page hd hl => ?_
    refine hcur e (List.mem_cons_of_mem entry he) page ?_ hl
    simp only [DurableStore.forgetWritten] at hd
    split at hd
    · rw [getElem?_erase_page] at hd
      split at hd
      · cases hd
      · exact hd
    · exact hd

/-- **`complete_background_checkpoint`** forgets the pages that were written and
frees the sealed segment. -/
theorem complete_meets {s₀ : DurableStore} (hinv : Inv mode H H.length s₀)
    (hmode : mode.rotates = true) (hjob : JobInv mode H s₀ job) (hp : job.phase = .sealed) :
    Meets (fun s => s = s₀) (completeBackgroundCheckpoint job)
      (fun _ s => Inv mode H H.length s ∧ s.checkpointInFlight = false ∧ s.spareFile = {})
      (fun _ _ => False) (fun _ => False) := by
  have hspare := hjob.sealed hp
  have hnil : ∀ E, s₀.spareFile.Leaves E → E = [] := fun E hE => by
    rw [hspare] at hE
    exact SegmentFile.leaves_settled hE
  have hinv₁ := hinv.onSpare hmode (fun seg => { seg with endOffset := 0 })
    (fun E hE => Or.inl hE) (fun E hE hne => absurd (hnil E hE) hne) fun _ => hjob.inFlight
  rw [← hjob.spare] at hinv₁
  generalize hs₂ : onWal
    (fun w => { w.onSegment job.retired (fun seg => { seg with endOffset := 0 })
    with retired := none,
         records := w.records.filter fun record => decide (job.boundaryLsn ≤ record.lsn) }) s₀ = s₂
  have hinv₂ : Inv mode H H.length s₂ := by
    rw [← hs₂]
    exact hinv₁.congr rfl rfl rfl rfl rfl rfl rfl rfl fun _ h => h
  have hfile₂ : s₂.spareFile = {} := by
    have := congrArg Segment.file
      (spareSegment_onSpare s₀ fun seg => { seg with endOffset := 0 })
    rw [← hs₂, ← hspare, hjob.spare]
    exact this
  have hinner : Meets (fun s => s = s₀) (completeBackgroundCheckpointInner job)
      (fun _ s => s = job.written.foldl DurableStore.forgetWritten s₂) (fun _ _ => False)
      (fun _ => False) := by
    unfold completeBackgroundCheckpointInner finishRecycle
    refine Meets.bind (Q := fun _ s => s = s₂) ?_ fun _ => Meets.update ?_
    · refine Meets.bind (Q := fun wal s => s = s₀ ∧ wal = s₀.wal) (Meets.read ?_) fun wal => ?_
      · rintro s rfl
        exact ⟨rfl, rfl⟩
      refine Meets.assuming (p := wal = s₀.wal) (fun _ h => h.2) ?_
      rintro rfl
      rw [hjob.retired]
      refine Meets.update ?_
      rintro s ⟨rfl, -⟩
      exact hs₂
    · rintro s rfl
      rfl
  obtain ⟨hinv₃, hwal⟩ := Inv.forgetAll job.written hinv₂ fun entry he page hd hl => by
    rw [← hs₂] at hd ⊢
    exact (hjob.written entry he).2 page hd hl
  rintro s rfl
  have hpoison := poisonOnError_meets (F := fun _ _ => False) hinner fun _ _ h => h
  obtain ⟨a, hok, hst⟩ := hpoison.returns rfl
  unfold completeBackgroundCheckpoint
  refine ⟨fun d hd => hpoison.during rfl hd, fun _ _ => ?_, fun e he => ?_⟩
  · simp only [hst]
    have hfile₃ : (job.written.foldl DurableStore.forgetWritten s₂).spareFile = {} := by
      rw [← hfile₂]
      unfold DurableStore.spareFile
      rw [hwal]
    refine ⟨hinv₃.congr rfl rfl rfl rfl rfl rfl rfl rfl fun hstop => ?_, trivial, hfile₃⟩
    rw [hfile₃] at hstop
    cases hstop
  · simp only [hok] at he
    cases he

end

end QuantaDb
