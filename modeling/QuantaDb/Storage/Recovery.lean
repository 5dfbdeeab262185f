import QuantaDb.Storage.Calls

/-!
# QuantaDb.Storage.Recovery

`DurableStore::open`: whatever a power failure left, opening succeeds and brings
back a history that the disk keeps.

The log is read in LSN order (`attach_spec`), its committed writes are redone
onto the data file (`recover_meets`), and the LSN counter is set past every page
and record (`maxLsn_ok`).  If both segments hold records, a checkpoint empties
them.
-/

namespace QuantaDb

open Redo Crash DurableStore

variable {mode : Mode} {H : History} {n : Nat}

/-! ## attaching the log -/

variable {A : List WalRecord}

/-- Segments in LSN order join to their concatenation; an append goes to the
later one, or to the only one that has records. -/
theorem join_spec {recordsA recordsB E : List WalRecord} {e : Fin 2} (hs : Sorted (E ++ A))
    (h : (e = 0 ∧ recordsA = E ∧ recordsB = A) ∨ (e = 1 ∧ recordsA = A ∧ recordsB = E)) :
    ∃ active, Wal.join recordsA recordsB = (E ++ A, active, none) ∧
      ((active = 1 - e ∧ (E ≠ [] → A ≠ [])) ∨ (active = e ∧ A = [])) := by
  have hseam : ∀ (x y : WalRecord) (xs ys : List WalRecord) (i : Fin 2),
      Sorted ((x :: xs) ++ (y :: ys)) →
      Wal.seam (x :: xs) (y :: ys) y i = ((x :: xs) ++ (y :: ys), i, none) := by
    intro x y xs ys i hs
    have hlast : ((x :: xs).getLast?.all fun last => decide (last.lsn < y.lsn)) = true := by
      rw [List.getLast?_eq_some_getLast (List.cons_ne_nil x xs)]
      simp only [Option.all_some, decide_eq_true_eq]
      exact (List.pairwise_append.mp hs).2.2 _ (List.getLast_mem _) y List.mem_cons_self
    simp only [Wal.seam, hlast, if_true]
  have hhead : ∀ (x y : WalRecord) (xs ys : List WalRecord),
      Sorted ((x :: xs) ++ (y :: ys)) → x.lsn < y.lsn := fun x y xs ys hs =>
    (List.pairwise_append.mp hs).2.2 x List.mem_cons_self y List.mem_cons_self
  rcases h with ⟨rfl, rfl, rfl⟩ | ⟨rfl, rfl, rfl⟩
  · cases recordsB with
    | nil => exact ⟨0, by simp [Wal.join], Or.inr ⟨rfl, rfl⟩⟩
    | cons y ys =>
      cases recordsA with
      | nil => exact ⟨1, by simp [Wal.join], Or.inl ⟨rfl, by simp⟩⟩
      | cons x xs =>
        refine ⟨1, ?_, Or.inl ⟨rfl, by simp⟩⟩
        simp only [Wal.join, if_pos (hhead x y xs ys hs)]
        exact hseam x y xs ys 1 hs
  · cases recordsB with
    | nil => exact ⟨0, by simp [Wal.join], Or.inl ⟨rfl, by simp⟩⟩
    | cons y ys =>
      cases recordsA with
      | nil => exact ⟨1, by simp [Wal.join], Or.inr ⟨rfl, rfl⟩⟩
      | cons x xs =>
        refine ⟨0, ?_, Or.inl ⟨rfl, by simp⟩⟩
        have hlt := hhead y x ys xs hs
        simp only [Wal.join, if_neg (Nat.not_lt.mpr (Nat.le_of_lt hlt))]
        exact hseam y x ys xs 0 hs

/-- The records of an attached log: `S` in the spare segment, `A` in the active
one. -/
structure Attached (files : Fin 2 → SegmentFile) (S A : List WalRecord) (wal : Wal) : Prop where
  segments : wal.segments = fun i => ⟨files i, (files i).length⟩
  spare : (files wal.spare).records = S
  active : (files wal.active).records = A
  records : wal.records = S ++ A
  last : S ≠ [] → A ≠ []
  below : ∀ r ∈ S ++ A, r.lsn < wal.nextLsn
  bound : wal.nextLsn < 2 ^ 64

theorem Wal.spare_of_active {wal : Wal} {e : Fin 2} (h : wal.active = 1 - e) : wal.spare = e := by
  unfold Wal.spare
  rw [h]
  clear h
  revert e; decide

/-- **`Wal::open`** reads the two segments in LSN order. -/
theorem attach_spec {files : Fin 2 → SegmentFile} {E : List WalRecord} {e : Fin 2}
    (hE : (files e).records = E) (hA : (files (1 - e)).records = A) (hs : Sorted (E ++ A))
    (hb : ∀ r ∈ E ++ A, r.lsn + 1 < 2 ^ 64) :
    (Wal.attach files).2 = none ∧ ∃ S A', Attached files S A' (Wal.attach files).1 ∧
      S ++ A' = E ++ A ∧ ((S = E ∧ A' = A) ∨ S = []) := by
  have hfiles : (e = 0 ∧ (files 0).records = E ∧ (files 1).records = A) ∨
      (e = 1 ∧ (files 0).records = A ∧ (files 1).records = E) := by
    revert e
    intro e
    match e with
    | 0 => exact fun hE hA => Or.inl ⟨rfl, hE, hA⟩
    | 1 => exact fun hE hA => Or.inr ⟨rfl, hA, hE⟩
  obtain ⟨active, hjoin, hactive⟩ := join_spec hs hfiles
  have hnext : (∀ r ∈ E ++ A, r.lsn < (Wal.attach files).1.nextLsn) ∧
      (Wal.attach files).1.nextLsn < 2 ^ 64 := by
    simp only [Wal.attach, hjoin]
    cases hl : (E ++ A).getLast? with
    | none =>
      rw [List.getLast?_eq_none_iff] at hl
      rw [hl]
      exact ⟨by simp, by simp⟩
    | some last =>
      have hlast := hb last (List.mem_of_getLast? hl)
      refine ⟨fun r hr => ?_, by simp only; omega⟩
      obtain ⟨init, hinit⟩ := List.getLast?_eq_some_iff.mp hl
      rw [hinit] at hr hs
      have hle : r.lsn ≤ last.lsn := by
        rcases List.mem_append.mp hr with hr | hr
        · exact Nat.le_of_lt ((List.pairwise_append.mp hs).2.2 r hr last (by simp))
        · rw [List.mem_singleton] at hr
          rw [hr]
      simp only
      omega
  refine ⟨by simp only [Wal.attach, hjoin], ?_⟩
  have hactive' : (Wal.attach files).1.active = active := by simp only [Wal.attach, hjoin]
  have hrecords : (Wal.attach files).1.records = E ++ A := by simp only [Wal.attach, hjoin]
  rcases hactive with ⟨hact, hlast⟩ | ⟨hact, hnil⟩
  · rw [hact] at hactive'
    have hspare := Wal.spare_of_active hactive'
    exact ⟨E, A, ⟨rfl, by rw [hspare]; exact hE, by rw [hactive']; exact hA, hrecords, hlast,
      hnext.1, hnext.2⟩, rfl, Or.inl ⟨rfl, rfl⟩⟩
  · rw [hact] at hactive'
    have hspare : (Wal.attach files).1.spare = 1 - e := by
      unfold Wal.spare
      rw [hactive']
    subst hnil
    refine ⟨[], E, ⟨rfl, by rw [hspare]; exact hA, by rw [hactive']; exact hE, ?_, by simp,
      ?_, hnext.2⟩, by simp, Or.inr rfl⟩
    · rw [hrecords]; simp
    · simpa using hnext.1

theorem SegmentFile.length_pos_iff (file : SegmentFile) : 0 < file.length ↔ file.records ≠ [] := by
  refine ⟨fun h hnil => ?_, fun h => Nat.pos_of_ne_zero fun hz => h (SegmentFile.length_eq_zero hz)⟩
  rw [SegmentFile.length, hnil] at h
  exact Nat.lt_irrefl 0 h

/-- Both segments are live exactly if the spare one holds records. -/
theorem Attached.live_iff {files : Fin 2 → SegmentFile} {S : List WalRecord} {wal : Wal}
    (h : Attached files S A wal) : wal.bothSegmentsLive = true ↔ S ≠ [] := by
  have hboth : wal.bothSegmentsLive = true ↔ ∀ i, 0 < (wal.segments i).endOffset := by
    simp only [Wal.bothSegmentsLive, Bool.and_eq_true, decide_eq_true_eq]
    refine ⟨fun hl i => ?_, fun hl => ⟨hl 0, hl 1⟩⟩
    match i with
    | 0 => exact hl.1
    | 1 => exact hl.2
  rw [hboth, h.segments]
  simp only [SegmentFile.length_pos_iff]
  refine ⟨fun hl => h.spare ▸ hl wal.spare, fun hS i => ?_⟩
  rcases wal.eq_active_or_spare i with rfl | rfl
  · rw [h.active]; exact h.last hS
  · rw [h.spare]; exact hS

/-! ## the newest page -/

variable {data : DataFile}

/-- `max_lsn` succeeds on pages that decode, and is the newest LSN on any page. -/
theorem maxLsn_ok (hslots : SlotsOk mode data)
    (hintact : ∀ id reason, (data.slot id).current ≠ some (.torn reason)) :
    ∃ maximum, data.maxLsn = .ok maximum ∧
      (∀ id page, (data.slot id).current = some (.page page) → page.lsn ≤ maximum) ∧
      (maximum = 0 ∨ ∃ id page, (data.slot id).current = some (.page page) ∧
        page.lsn = maximum) := by
  have hsize : pageSize = 8192 := rfl
  have hplace : ∀ raw < data.pageCount, raw < 2 ^ 64 ∧ Placeable (UInt64.ofNat raw) ∧
      (UInt64.ofNat raw).toNat = raw := by
    intro raw hraw
    have hlt := hslots.count raw hraw
    rw [hsize, maxFileLength] at hlt
    have hnat : (UInt64.ofNat raw).toNat = raw := by
      rw [UInt64.toNat_ofNat']; exact Nat.mod_eq_of_lt (by omega)
    refine ⟨by omega, ?_, hnat⟩
    rw [Placeable, hnat, hsize]
    exact hslots.count raw hraw
  have hblank : ∀ raw < data.pageCount, (data.slot (UInt64.ofNat raw)).current = none →
      data.read (UInt64.ofNat raw) = .ok none := by
    intro raw hraw hc
    simp only [data.read_of_placeable (hplace raw hraw).2.1, DataFile.decode, hc]
  have hread : ∀ raw < data.pageCount, ∀ page,
      (data.slot (UInt64.ofNat raw)).current = some (.page page) →
      data.read (UInt64.ofNat raw) = .ok (some page) := by
    intro raw hraw page hc
    have hleaves := Slot.leaves_current mode.tears (data.slot (UInt64.ofNat raw))
    rw [hc] at hleaves
    simp [data.read_of_placeable (hplace raw hraw).2.1, DataFile.decode, hc,
      hslots.ids _ page hleaves]
  suffices aux : ∀ (raws : List Nat) (m : Nat), (∀ raw ∈ raws, raw < data.pageCount) →
      (m = 0 ∨ ∃ id page, (data.slot id).current = some (.page page) ∧ page.lsn = m) →
      ∃ maximum, raws.foldlM data.newerLsn m = (.ok maximum : Except StorageError Nat) ∧
        m ≤ maximum ∧
        (∀ raw ∈ raws, ∀ page, (data.slot (UInt64.ofNat raw)).current = some (.page page) →
          page.lsn ≤ maximum) ∧
        (maximum = 0 ∨ ∃ id page, (data.slot id).current = some (.page page) ∧
          page.lsn = maximum) by
    obtain ⟨maximum, hm, -, hle, hatt⟩ := aux (List.range data.pageCount) 0 (by simp) (Or.inl rfl)
    refine ⟨maximum, hm, fun id page hc => ?_, hatt⟩
    have hlt : id.toNat < data.pageCount := DataFile.lt_pageCount (by rw [hc]; simp)
    have hid : UInt64.ofNat id.toNat = id := UInt64.ofNat_toNat
    exact hle id.toNat (by simpa using hlt) page (by rw [hid]; exact hc)
  intro raws
  induction raws with
  | nil =>
    intro m _ hm
    exact ⟨m, rfl, Nat.le_refl _, by simp, hm⟩
  | cons raw raws ih =>
    intro m hraws hm
    have hraw := hraws raw List.mem_cons_self
    have hrest : ∀ r ∈ raws, r < data.pageCount := fun r hr =>
      hraws r (List.mem_cons_of_mem raw hr)
    rw [List.foldlM_cons, DataFile.newerLsn]
    cases hc : (data.slot (UInt64.ofNat raw)).current with
    | none =>
      rw [hblank raw hraw hc]
      obtain ⟨maximum, hfold, hle, hall, hatt⟩ := ih m hrest hm
      refine ⟨maximum, hfold, hle, fun r hr page hpage => ?_, hatt⟩
      rcases List.mem_cons.mp hr with rfl | hr
      · rw [hc] at hpage; cases hpage
      · exact hall r hr page hpage
    | some image =>
      cases image with
      | torn reason => exact absurd hc (hintact _ reason)
      | page page =>
        rw [hread raw hraw page hc]
        have hm' : max m page.lsn = 0 ∨ ∃ id q,
            (data.slot id).current = some (.page q) ∧ q.lsn = max m page.lsn := by
          by_cases hle : page.lsn ≤ m
          · rw [Nat.max_eq_left hle]; exact hm
          · exact Or.inr ⟨_, page, hc, (Nat.max_eq_right (by omega)).symm⟩
        obtain ⟨maximum, hfold, hle, hall, hatt⟩ := ih (max m page.lsn) hrest hm'
        refine ⟨maximum, hfold, by omega, fun r hr q hq => ?_, hatt⟩
        rcases List.mem_cons.mp hr with rfl | hr
        · rw [hc] at hq
          cases hq
          omega
        · exact hall r hr q hq

/-! ## redoing the log -/

/-- The state of recovery: the writes `done` of the log `L` have been redone onto
the data file `data₀`. -/
structure Redoing (mode : Mode) (F L : List CommittedWrite) (s₂ : DurableStore)
    (done : List CommittedWrite) (s : DurableStore) : Prop where
  rest : ∃ data, s = { s₂ with data := data }
  slots : SlotsOk mode s.data
  covered : Covered mode F L s.data
  current : ∀ id, stampOf (s.data.slot id).current =
    redo CommittedWrite.lsn CommittedWrite.apply (stampOf (s₂.data.slot id).current)
    (onPage id done)
  /-- bytes that do not decode are what the crash left, and are redone onto -/
  torn : ∀ id reason, (s.data.slot id).current = some (.torn reason) →
    (s₂.data.slot id).current = some (.torn reason) ∧ onPage id done = []

variable {F L : List CommittedWrite} {s₂ : DurableStore}

theorem Redoing.start (hslots : SlotsOk mode s₂.data) (hcov : Covered mode F L s₂.data) :
    Redoing mode F L s₂ [] s₂ :=
  ⟨⟨s₂.data, rfl⟩, hslots, hcov, fun _ => rfl, fun _ _ h => ⟨h, rfl⟩⟩

/-- What recovery reads of a page. -/
theorem replay_read (hslots : SlotsOk mode data) {id : PageId} (hp : Placeable id) :
    ∃ page : Option Page, DurableStore.readForReplay data id = .ok page ∧
      page.map Page.stamped = stampOf (data.slot id).current := by
  have hleaves := Slot.leaves_current mode.tears (data.slot id)
  simp only [DurableStore.readForReplay, data.read_of_placeable hp, DataFile.decode]
  cases hc : (data.slot id).current with
  | none => exact ⟨none, rfl, rfl⟩
  | some image =>
    cases image with
    | torn reason => exact ⟨none, rfl, rfl⟩
    | page page =>
      rw [hc] at hleaves
      exact ⟨some page, by simp [hslots.ids id page hleaves], rfl⟩

/-- One write of the log. -/
theorem replayWrite_meets {done rest : List CommittedWrite} {w : CommittedWrite}
    (hproper : Proper F) (hsub : L.Sublist F) (htear : mode.tears = true → TearSafe F L)
    (hcov₂ : Covered mode F L s₂.data) (hL : L = done ++ w :: rest) {C : Disk → Prop}
    (hC : ∀ s done, Redoing mode F L s₂ done s → C s.disk) :
    Meets (Redoing mode F L s₂ done) (replayWrite w)
      (fun _ => Redoing mode F L s₂ (done ++ [w])) (fun _ _ => False) C := by
  have hwL : w ∈ L := by rw [hL]; simp
  have hp : Placeable w.pageId := hproper.placeable w (hsub.subset hwL)
  unfold replayWrite
  refine Meets.of_state fun s h => ?_
  obtain ⟨page, hread, hstamp⟩ := replay_read h.slots hp
  refine Meets.bind (Q := fun current s' => s' = s ∧ current = page) (Meets.attempt ?_ ?_)
    fun current => ?_
  · rintro s' rfl current hcur
    exact ⟨rfl, Except.ok.inj (hcur.symm.trans hread)⟩
  · rintro s' rfl e he
    cases he.symm.trans hread
  refine Meets.assuming (p := current = page) (fun _ h => h.2) ?_
  rintro rfl
  have hcur := h.current w.pageId
  rw [← hstamp] at hcur
  have hredo : ∀ id, w.pageId ≠ id → onPage id (done ++ [w]) = onPage id done := by
    intro id hne
    rw [onPage_append, onPage_singleton_of_ne hne, List.append_nil]
  have hself : redo CommittedWrite.lsn CommittedWrite.apply
    (stampOf (s₂.data.slot w.pageId).current)
      (onPage w.pageId (done ++ [w])) =
      redo1 CommittedWrite.lsn CommittedWrite.apply (current.map Page.stamped) w := by
    rw [onPage_append, onPage_singleton_self, redo_append, ← hcur]
    rfl
  have hcovers : (current.any fun page => decide (w.lsn ≤ page.lsn)) =
      covers (current.map Page.stamped) w.lsn := by
    cases current <;> rfl
  refine Meets.ite (fun hskip => Meets.pure ?_) fun hnew => ?_
  · rintro s' ⟨rfl, -⟩
    rw [hcovers] at hskip
    refine ⟨h.rest, h.slots, h.covered, fun id => ?_, fun id reason ht => ?_⟩
    · by_cases hne : w.pageId = id
      · subst hne
        rw [hself, redo1_of_covers hskip, hstamp]
      · rw [hredo id hne]; exact h.current id
    · obtain ⟨ht₂, hnil⟩ := h.torn id reason ht
      refine ⟨ht₂, ?_⟩
      by_cases hne : w.pageId = id
      · -- a page that does not decode has no stamp to skip by
        subst hne
        rw [ht] at hstamp
        rw [hstamp] at hskip
        cases hskip
      · rw [hredo id hne]; exact hnil
  · have hnew' : covers (current.map Page.stamped) w.lsn = false := by
      rw [← hcovers]; simpa using hnew
    have hfit : (w.apply (current.map Page.payload)).length ≤ maxPagePayload := by
      refine CommittedWrite.length_apply_le (hproper.fits w (hsub.subset hwL)) fun bytes hb => ?_
      cases current with
      | none => cases hb
      | some page =>
        simp only [Option.map_some, Option.mem_some_iff] at hb
        rw [← hb]; exact page.fits
    rw [Page.withLsn_of_fits hfit]
    generalize hpage : (⟨w.pageId, w.lsn, w.apply (current.map Page.payload), hfit⟩ : Page) = q
    have hqid : q.id = w.pageId := by rw [← hpage]
    have hqstamp : some q.stamped = redo CommittedWrite.lsn CommittedWrite.apply
        (stampOf (s₂.data.slot w.pageId).current) (onPage w.pageId (done ++ [w])) := by
      rw [hself, redo1_of_not_covers hnew', ← hpage]
      simp only [Page.stamped, Option.map_map]
      congr 2
    have hredoing : Redoing mode F L s₂ (done ++ [w]) { s with data := s.data.write q } := by
      obtain ⟨data, rfl⟩ := h.rest
      have hLpage : onPage q.id L ≠ [] := by
        intro hnil
        have : w ∈ onPage q.id L := mem_onPage.mpr ⟨hwL, hqid.symm⟩
        rw [hnil] at this
        cases this
      have hreb : Rebuilds q.id F L (some q.stamped) := by
        rw [hqstamp, ← hqid]
        have hsplit : onPage q.id L = onPage q.id (done ++ [w]) ++ onPage q.id rest := by
          rw [hL, ← onPage_append]
          simp
        exact Redo.Rebuilds.redo_prefix (hproper.onPage _)
          (hcov₂ q.id _ (Slot.leaves_current _ _)).1 hsplit
      refine ⟨⟨_, rfl⟩, h.slots.write (hqid ▸ hp),
        h.covered.write hreb fun ht => ⟨hLpage, htear ht _ hLpage⟩, fun id => ?_,
        fun id reason ht => ?_⟩
      · by_cases hne : q.id = id
        · subst hne
          simp only [DataFile.slot_write_self, Slot.current_write, stampOf_page]
          rw [hqstamp, hqid]
        · simp only [DataFile.slot_write_of_ne _ hne]
          rw [hredo id (by rw [← hqid]; exact hne)]
          exact h.current id
      · by_cases hne : q.id = id
        · subst hne
          simp only [DataFile.slot_write_self, Slot.current_write] at ht
          cases ht
        · simp only [DataFile.slot_write_of_ne _ hne] at ht
          rw [hredo id (by rw [← hqid]; exact hne)]
          exact h.torn id reason ht
    refine Meets.bind (Q := fun q' s' => s' = s ∧ q' = q) (Meets.attempt ?_ ?_) fun q' => ?_
    · rintro s' ⟨rfl, -⟩ q' hq'
      exact ⟨rfl, (Except.ok.inj hq').symm⟩
    · rintro s' _ e he
      cases he
    refine Meets.assuming (p := q' = q) (fun _ h => h.2) ?_
    rintro rfl
    refine Meets.bind (Q := fun _ => Redoing mode F L s₂ (done ++ [w]))
      (writeData_meets (fun _ _ => hqid ▸ hp) ?_) fun _ => Meets.pure fun _ h => h
    rintro s' ⟨rfl, -⟩
    exact ⟨hC _ _ hredoing, hredoing⟩

/-- Recovery is through with the data file `data₀`: each page is the one the
history makes, and carries the LSN it had or that of a change in the log. -/
structure Redone (mode : Mode) (F L : List CommittedWrite) (data₀ data : DataFile) : Prop where
  slots : SlotsOk mode data
  covered : Covered mode F L data
  holds : ∀ id, Holds (data.slot id).current (imageOf (onPage id F))
  lsns : ∀ id page, (data.slot id).current = some (.page page) →
    (∃ page₀, (data₀.slot id).current = some (.page page₀) ∧ page₀.lsn = page.lsn) ∨
      ∃ w ∈ L, w.lsn = page.lsn

theorem Redoing.finish {s : DurableStore} (hproper : Proper F) (hcov₂ : Covered mode F L s₂.data)
    (h : Redoing mode F L s₂ L s) :
    Redone mode F L s₂.data s.data := by
  refine ⟨h.slots, h.covered, fun id => ?_, fun id page hc => ?_⟩
  swap
  · have hcur := h.current id
    rw [hc, stampOf_page] at hcur
    rcases redo_lsn hcur.symm with hold | ⟨w, hw, hlsn⟩
    · cases hc₀ : (s₂.data.slot id).current with
      | none => rw [hc₀] at hold; cases hold
      | some image =>
        cases image with
        | torn reason => rw [hc₀] at hold; cases hold
        | page page₀ =>
          rw [hc₀, stampOf_page, Option.some.injEq] at hold
          exact Or.inl ⟨page₀, rfl, congrArg Stamped.lsn hold⟩
    · exact Or.inr ⟨w, (mem_onPage.mp hw).1, hlsn⟩
  have hstart := hcov₂ id _ (Slot.leaves_current mode.tears (s₂.data.slot id))
  refine ⟨fun reason ht => ?_, ?_⟩
  · obtain ⟨ht₂, hnil⟩ := h.torn id reason ht
    exact hstart.2 reason ht₂ hnil
  · rw [h.current id]
    exact hstart.1.redo_eq (hproper.onPage id)

theorem Redone.sync {data₀ : DataFile} (h : Redone mode F L data₀ data) :
    Redone mode F L data₀ data.sync := by
  have hleaves : ∀ id image, (data.sync.slot id).Leaves mode.tears image →
      (data.slot id).Leaves mode.tears image := by
    intro id image hl
    rw [DataFile.slot_sync] at hl
    rw [Slot.leaves_sync hl]
    exact Slot.leaves_current _ _
  refine ⟨h.slots.narrow hleaves (by simp), h.covered.narrow hleaves, fun id => ?_,
    fun id page hc => ?_⟩
  · rw [DataFile.slot_sync, Slot.current_sync]
    exact h.holds id
  · rw [DataFile.slot_sync, Slot.current_sync] at hc
    exact h.lsns id page hc

/-- **`recover`** brings every page to what the history makes of it. -/
theorem recover_meets {L : History} (s₂ : DurableStore) (hproper : Proper F)
    (hreads : Reads s₂.wal.records L) (hsub : L.flatten.Sublist F)
    (htear : mode.tears = true → TearSafe F L.flatten) (hslots : SlotsOk mode s₂.data)
    (hcov : Covered mode F L.flatten s₂.data) {C : Disk → Prop}
    (hC : ∀ data, SlotsOk mode data → Covered mode F L.flatten data →
      C (DurableStore.disk { s₂ with data := data })) :
    Meets (fun s => s = s₂) recover
      (fun _ s => ∃ data, s = { s₂ with data := data } ∧ Redone mode F L.flatten s₂.data data)
      (fun _ _ => False) C := by
  have hcrash : ∀ s done, Redoing mode F L.flatten s₂ done s → C s.disk := by
    intro s done h
    obtain ⟨data, rfl⟩ := h.rest
    exact hC data h.slots h.covered
  obtain ⟨pending, hscan⟩ := hreads
  have himages := committedPageImages_of_scan hscan
  unfold recover
  refine Meets.bind (Q := fun records s => s = s₂ ∧ records = L.flatten)
    (Meets.attempt ?_ ?_) fun records => ?_
  · rintro s rfl records hr
    exact ⟨rfl, (Except.ok.inj (himages.symm.trans hr)).symm⟩
  · rintro s rfl e he
    cases himages.symm.trans he
  refine Meets.assuming (p := records = L.flatten) (fun _ h => h.2) ?_
  rintro rfl
  refine Meets.bind (Q := fun _ => Redoing mode F L.flatten s₂ L.flatten) ?_ fun wrote =>
    Meets.when (fun _ => Meets.issue ?_) ?_
  · refine (Meets.forEach (I := fun done _ => Redoing mode F L.flatten s₂ done)
      fun done w rest _ hL => replayWrite_meets hproper hsub htear hcov hL hcrash).pre ?_
    rintro s ⟨rfl, -⟩
    exact Redoing.start hslots hcov
  · intro s h
    have hdone := (h.finish hproper hcov).sync
    obtain ⟨data, rfl⟩ := h.rest
    exact ⟨hC _ hdone.slots hdone.covered, _, rfl, hdone⟩
  · intro _ s h
    have hdone := h.finish hproper hcov
    obtain ⟨data, rfl⟩ := h.rest
    exact ⟨_, rfl, hdone⟩

/-! ## opening -/

theorem SegmentFile.leaves_stored (file : SegmentFile) : file.Leaves file.stored := by
  unfold SegmentFile.stored
  cases hs : file.stopped with
  | true => exact .stopped hs
  | false =>
    have hkept : file.Leaves _ := .kept file.written.length
    rwa [List.take_length] at hkept

theorem SegmentFile.leaves_sync {file : SegmentFile} {records : List WalRecord}
    (h : file.sync.Leaves records) : file.Leaves records := by
  rw [SegmentFile.leaves_settled h]
  exact file.leaves_stored

variable {batches : List Batch} {d : Disk}

/-- Syncing the log only narrows what a power failure can leave. -/
theorem Keeps.of_segments {d₁ : Disk} (h : Keeps mode batches n d) (hd : d₁.data = d.data)
    (hseg : ∀ i records, (d₁.segments i).Leaves records → (d.segments i).Leaves records) :
    Keeps mode batches n d₁ := by
  intro d' hn
  refine h d' ⟨fun i => ?_, hd ▸ hn.slots, hd ▸ hn.pageCount⟩
  obtain ⟨records, hl, hi⟩ := hn.segments i
  exact ⟨records, hseg i records hl, hi⟩

/-- The disk once both segments are synced. -/
def Disk.settleLog (d : Disk) : Disk := { d with segments := fun i => (d.segments i).sync }

theorem Disk.narrows_settleLog (d : Disk) : d.Narrows mode d.settleLog :=
  ⟨fun i => ⟨_, (d.segments i).leaves_stored, rfl⟩, fun _ _ h => h, Nat.le_refl _⟩

/-- The reader of the log stops at no record of a disk that keeps the batches. -/
theorem Keeps.readable (h : Keeps mode batches n d) (i : Fin 2) :
    ∀ r ∈ (d.segments i).stored, Readable r.kind := by
  obtain ⟨H, -, hdur⟩ := h _ d.narrows_settleLog
  obtain ⟨e, E, A, L, hE, hA, hpair, -⟩ := hdur.log
  have hstored : ∀ {i records}, d.settleLog.segments i = { synced := records } →
      (d.segments i).stored = records := by
    intro i records hi
    simpa [Disk.settleLog, SegmentFile.sync] using hi
  have hi : i = e ∨ i = 1 - e := by
    clear hE hA
    revert i e
    decide
  intro r hr
  rcases hi with rfl | rfl
  · rw [hstored hE] at hr
    exact hpair.readable r (List.mem_append_left A hr)
  · rw [hstored hA] at hr
    exact hpair.readable r (List.mem_append_right E hr)

/-- On such a disk the repair of a segment cuts nothing off. -/
theorem Keeps.repair_eq (h : Keeps mode batches n d) (i : Fin 2) :
    (d.segments i).repair = (d.segments i).sync := by
  rw [SegmentFile.repair, SegmentFile.records_of_readable (h.readable i), SegmentFile.sync]

/-- The store once its files are open and the log is settled. -/
def settledAttach (d : Disk) : DurableStore :=
  onWal (fun w => { w with segments := fun i => ⟨(d.segments i).repair, (d.segments i).length⟩ })
    (DurableStore.attach d)

/-- The repair passes of `Wal::open` settle the log. -/
theorem repairLog_meets (h : Keeps mode batches n d) :
    Meets (fun s => s = DurableStore.attach d) repairLog
      (fun _ s => s = settledAttach d) (fun _ _ => False) (Keeps mode batches n) := by
  have hattach : (DurableStore.attach d).wal.segments =
      fun i => ⟨d.segments i, (d.segments i).length⟩ := rfl
  have hkeep : ∀ s : DurableStore, s.data = d.data →
      (∀ i, (s.wal.segments i).file = d.segments i ∨
        (s.wal.segments i).file = (d.segments i).repair) → Keeps mode batches n s.disk := by
    intro s hd hseg
    refine h.of_segments hd fun i records hl => ?_
    rcases hseg i with hi | hi
    · rw [← hi]; exact hl
    · rw [h.repair_eq i] at hi
      exact SegmentFile.leaves_sync (hi ▸ hl)
  unfold repairLog scanAndRepair
  refine Meets.bind (Q := fun _ s => s = onWal (fun w => w.onSegment 0 fun seg =>
      { seg with file := seg.file.repair }) (DurableStore.attach d)) (Meets.issue ?_) fun _ =>
    Meets.issue ?_
  · rintro s rfl
    refine ⟨hkeep _ rfl fun i => ?_, rfl⟩
    match i with
    | 0 => exact Or.inr rfl
    | 1 => exact Or.inl rfl
  · rintro s rfl
    refine ⟨hkeep _ rfl fun i => ?_, ?_⟩
    · match i with
      | 0 => exact Or.inr rfl
      | 1 => exact Or.inr rfl
    · unfold settledAttach onWal
      simp only [DurableStore.mk.injEq, Wal.mk.injEq, true_and, and_true, Wal.onSegment]
      funext i
      match i with
      | 0 => rfl
      | 1 => rfl

/-- What is in the log and the data file of an opened store, and what is not yet
in its tables. -/
structure Opening (mode : Mode) (H : History) (d : Disk) (L : History) (s : DurableStore) :
    Prop where
  segments : s.wal.segments = fun i => ⟨(d.segments i).repair, (d.segments i).length⟩
  active : s.wal.active = (Wal.attach d.segments).1.active
  nextLsn : (Wal.attach d.segments).1.nextLsn ≤ s.wal.nextLsn
  redone : Redone mode H.flatten L.flatten d.data s.data
  tables : s.dirty = ∅ ∧ s.flushed = ∅

section

variable {d : Disk} {S A : List WalRecord} {L : History} {s : DurableStore}

theorem Opening.activeFile (h : Opening mode H d L s)
    (hatt : Attached d.segments S A (Wal.attach d.segments).1) :
    s.activeFile = { synced := A } := by
  simp only [DurableStore.activeFile, h.segments, h.active, SegmentFile.repair, hatt.active]

theorem Opening.spareFile (h : Opening mode H d L s)
    (hatt : Attached d.segments S A (Wal.attach d.segments).1) :
    s.spareFile = { synced := S } := by
  have hspare : s.wal.spare = (Wal.attach d.segments).1.spare := by
    unfold Wal.spare; rw [h.active]
  simp only [DurableStore.spareFile, h.segments, hspare, SegmentFile.repair, hatt.spare]

/-- An opened store satisfies the invariant, all of its history durable. -/
theorem Opening.inv (h : Opening mode H d L s)
    (hatt : Attached d.segments S A (Wal.attach d.segments).1) (hproper : Proper H.flatten)
    (hbelow : ∀ w ∈ H.flatten, w.lsn < s.wal.nextLsn) (hbound : s.wal.nextLsn < 2 ^ 64)
    (hsorted : Sorted (S ++ A)) (hreadable : ∀ r ∈ S ++ A, Readable r.kind)
    (hS : ReadsPart H.flatten S) (hA : ReadsPart H.flatten A)
    (hreads : Reads (S ++ A) L) (hsub : L.flatten.Sublist H.flatten)
    (htear : mode.tears = true → TearSafe H.flatten L.flatten)
    (hsingle : mode.rotates = false → S = []) : Inv mode H H.length s := by
  have hactive := h.activeFile hatt
  have hspare := h.spareFile hatt
  have hlive : ∀ i, (d.segments i).records ≠ [] → 0 < (s.wal.segments i).endOffset := by
    intro i hne
    rw [h.segments]
    exact (d.segments i).length_pos_iff.mpr hne
  constructor
  · refine ⟨hproper, by simpa using hproper.ordered, by simpa using hbelow, hbound, Nat.le_refl _,
      h.redone.slots, ?_, ?_, ?_, ?_, fun E hE => ⟨L, ?_⟩, fun E hE hne => ?_, fun hne => ?_,
      fun hr => ?_, ?_⟩
    · rw [hactive]
    · rw [hactive]; simp
    · simp
    · obtain ⟨La, hLa, hs⟩ := hA
      exact ⟨La, by rw [hactive]; exact tail_of_reads hLa hs⟩
    · rw [hspare] at hE
      obtain rfl := SegmentFile.leaves_settled hE
      refine ⟨?_, ?_, ?_, ?_, ?_, ?_, ?_⟩
      · rw [hactive]; exact tail_of_reads hreads hsub
      · rw [List.take_length]; exact h.redone.covered
      · intro ht m hm hm'
        rw [Nat.le_antisymm hm' hm, List.take_length, List.drop_length, List.append_nil]
        exact htear ht
      · rw [hactive]; simpa using hsorted
      · rw [hactive]
        intro r hr
        exact Nat.lt_of_lt_of_le (hatt.below r (by simpa using hr)) h.nextLsn
      · rw [hactive]; simpa using hreadable
      · rw [List.take_length]; exact hS
    · rw [hspare] at hE
      obtain rfl := SegmentFile.leaves_settled hE
      refine hlive _ ?_
      rw [show s.wal.spare = (Wal.attach d.segments).1.spare by unfold Wal.spare; rw [h.active],
        hatt.spare]
      exact hne
    · refine hlive _ ?_
      rw [h.active, hatt.active]
      intro hnil
      rw [hactive, hnil] at hne
      exact hne rfl
    · rw [hspare, hsingle hr]
    · rw [hspare]
      exact fun hs => by cases hs
  · obtain ⟨hdirty, hflushed⟩ := h.tables
    refine ⟨fun id page hd => ?_, fun id _ => h.redone.holds id, fun id lsn hl => ?_,
      fun id page hd => ?_, fun _ id hd => ?_⟩
    · rw [hdirty] at hd; simp at hd
    · rw [hflushed] at hl; simp at hl
    · rw [hdirty] at hd; simp at hd
    · rw [hdirty] at hd; simp at hd

end

/-- What `open` promises from a disk that keeps the batches. -/
def Reopened (mode : Mode) (batches : List Batch) (n : Nat) (s : DurableStore) : Prop :=
  ∃ (H : History) (m : Nat), n ≤ m ∧ m ≤ batches.length ∧ H.given = batches.take m ∧
    Inv mode H H.length s ∧ s.checkpointInFlight = false ∧ s.spareFile = {}

/-- The LSN counter ends up past every change and, if the disk has room, not at
its end. -/
theorem nextLsn_ok (hredone : Redone mode F L d.data data) (hbound : ∀ w ∈ F, w.lsn + 1 < 2 ^ 64)
    {next : Nat} (hL : ∀ w ∈ L, w.lsn < next) :
    ∃ maximum, data.maxLsn = .ok maximum ∧ maximum + 1 < 2 ^ 64 ∧
      (∀ w ∈ F, w.lsn < max next (maximum + 1)) ∧
      (next + 1 < 2 ^ 64 → (∀ id page, (d.data.slot id).current = some (.page page) →
        page.lsn + 2 < 2 ^ 64) → max next (maximum + 1) + 1 < 2 ^ 64) := by
  obtain ⟨maximum, hmax, hle, hatt⟩ := maxLsn_ok hredone.slots fun id reason =>
    (hredone.holds id).1 reason
  refine ⟨maximum, hmax, ?_, fun w hw => ?_, fun hnext hpages => ?_⟩
  · rcases hatt with rfl | ⟨id, page, hc, rfl⟩
    · decide
    · have himg := (hredone.holds id).2
      rw [hc, stampOf_page] at himg
      obtain ⟨w, hw, hlsn⟩ := exists_mem_lsn_eq himg.symm
      have := hbound w (mem_onPage.mp hw).1
      rw [hlsn] at this
      exact this
  · have hcov : covers (imageOf (onPage w.pageId F)) w.lsn = true :=
      covers_latest_of_mem (mem_onPage.mpr ⟨hw, rfl⟩)
    obtain ⟨hintact, himg⟩ := hredone.holds w.pageId
    rw [← himg] at hcov
    cases hc : (data.slot w.pageId).current with
    | none => rw [hc] at hcov; cases hcov
    | some image =>
      cases image with
      | torn reason => exact absurd hc (hintact reason)
      | page page =>
        rw [hc, stampOf_page, covers_some, decide_eq_true_eq] at hcov
        have := hle _ _ hc
        simp only [Page.stamped] at hcov
        omega
  · have : maximum + 2 < 2 ^ 64 := by
      rcases hatt with rfl | ⟨id, page, hc, rfl⟩
      · decide
      · rcases hredone.lsns id page hc with ⟨page₀, hc₀, hlsn⟩ | ⟨w, hw, hlsn⟩
        · rw [← hlsn]; exact hpages id page₀ hc₀
        · have := hL w hw
          omega
    omega

/-- The LSN counter and the page allocator of an opened store. -/
def tuned (s : DurableStore) (maximum next : Nat) : DurableStore :=
  { s with
    wal := { s.wal with
      nextLsn := max s.wal.nextLsn (maximum + 1)
      records := Wal.afterLastCheckpoint s.wal.records }
    allocator := { s.allocator with nextPageId := next } }

/-- The end of `open`, from a store whose log is redone. -/
theorem finishOpen_meets {S : List WalRecord} {maximum next : Nat} {order : HashOrder}
    (hatt : Attached d.segments S A (Wal.attach d.segments).1)
    (hinv : Inv mode H H.length (tuned { settledAttach d with data := data } maximum next))
    (hroom : (Wal.attach d.segments).1.nextLsn + 1 < 2 ^ 64 →
      (∀ id page, (d.data.slot id).current = some (.page page) → page.lsn + 2 < 2 ^ 64) →
      max (Wal.attach d.segments).1.nextLsn (maximum + 1) + 1 < 2 ^ 64)
    (hspare : (tuned { settledAttach d with data := data } maximum next).spareFile =
      { synced := S }) (hsingle : mode.rotates = false → S = []) :
    Meets (fun s => s = tuned { settledAttach d with data := data } maximum next)
      (do let wal ← Prog.read (·.wal)
          Prog.when wal.bothSegmentsLive do
            let _ ← DurableStore.checkpoint order)
      (fun _ s => Inv mode H H.length s ∧ s.checkpointInFlight = false ∧ s.spareFile = {})
      (fun _ _ => ¬ d.HasRoom ∧ mode.rotates = true) (Keeps mode H.given H.length) := by
  generalize hs₃ : tuned { settledAttach d with data := data } maximum next = s₃ at hinv hspare ⊢
  have hidle : s₃.checkpointInFlight = false := by rw [← hs₃]; rfl
  refine Meets.bind (Q := fun wal s => s = s₃ ∧ wal = s₃.wal) (Meets.read ?_) fun wal =>
    Meets.when (fun hlive => ?_) fun hlive s h => ?_
  · rintro s rfl
    exact ⟨rfl, rfl⟩
  · refine Meets.assuming (p := wal = s₃.wal) (fun _ h => h.2) ?_
    rintro rfl
    have hlive' : (Wal.attach d.segments).1.bothSegmentsLive = true := by
      rw [← hs₃] at hlive
      exact hlive
    refine Meets.bind (Q := fun _ s => Inv mode H H.length s ∧ s.checkpointInFlight = false ∧
        s.spareFile = {}) ((checkpoint_meets hinv order ⟨by simp [Call.Loggable, Call.batches],
          fun _ => rfl⟩).conseq (fun s h => h.1) ?_ ?_ fun _ h => h) fun _ =>
          Meets.pure fun _ h => h
    · rintro _ s ⟨hi, -, hf, hfiles, -⟩
      exact ⟨hi, hf.inFlight.trans hidle, hfiles _⟩
    · rintro _ s ⟨-, -, hp | hb | hr⟩
      · rw [← hs₃] at hp; cases hp
      · rw [hidle] at hb; cases hb
      · refine ⟨fun hd => hr ?_, ?_⟩
        · obtain ⟨hnext, hend, hpages⟩ := hd hlive'
          rw [← hs₃]
          refine ⟨hroom hnext hpages, by decide, Nat.lt_of_le_of_lt ?_ (by decide :
            maxFileLength < 2 ^ 64)⟩
          exact Nat.le_trans (Nat.le_add_right _ _) hend
        · -- with one segment in use there is no checkpoint to make
          by_contra hrot
          exact hatt.live_iff.mp hlive' (hsingle (by simpa using hrot))
  · obtain ⟨rfl, rfl⟩ := h
    have hS : S = [] := by
      by_contra hS
      have hlive' := hatt.live_iff.mpr hS
      rw [← hs₃] at hlive
      rw [show (tuned { settledAttach d with data := data } maximum next).wal.bothSegmentsLive =
        (Wal.attach d.segments).1.bothSegmentsLive from rfl, hlive'] at hlive
      cases hlive
    exact ⟨hinv, hidle, by rw [hspare, hS]⟩

/-- **`DurableStore::open`** succeeds on whatever a power failure left, and brings
back a prefix of the batches that holds the durable ones. -/
theorem open_meets (h : Keeps mode batches n d) (order : HashOrder) :
    Meets (fun s => s = DurableStore.attach d) (openAttached order (Wal.attach d.segments).2)
      (fun _ => Reopened mode batches n) (fun _ _ => ¬ d.HasRoom ∧ mode.rotates = true)
      (Keeps mode batches n) := by
  obtain ⟨H, ⟨m, hn, hm, hgiven⟩, hdur⟩ := h _ d.narrows_settleLog
  obtain ⟨e, E, A₀, L, hE, hA₀, hpair, hcov⟩ := hdur.log
  have hrec : ∀ {i : Fin 2} {records : List WalRecord},
      d.settleLog.segments i = { synced := records } → (d.segments i).records = records := by
    intro i records hi
    rw [SegmentFile.records_of_readable (h.readable i)]
    simpa [Disk.settleLog, SegmentFile.sync] using hi
  obtain ⟨hgarbage, S, A, hatt, hSA, hcase⟩ :=
    attach_spec (hrec hE) (hrec hA₀) hpair.sorted hpair.bound
  have hHlen : H.length = m := by
    have := congrArg List.length hgiven
    rwa [History.length_given, List.length_take_of_le hm] at this
  have hkeeps : ∀ {d' : Disk}, Keeps mode H.given H.length d' → Keeps mode batches n d' := fun hk =>
    hk.mono (hgiven ▸ List.take_prefix m batches) (by omega)
  have hreads : Reads (S ++ A) L := hSA ▸ hpair.reads
  have hsorted : Sorted (S ++ A) := hSA ▸ hpair.sorted
  have hsingle : mode.rotates = false → S = [] := by
    intro hr
    rcases hcase with ⟨rfl, -⟩ | hS
    · exact hpair.single hr
    · exact hS
  have hparts : ReadsPart H.flatten S ∧ ReadsPart H.flatten A := by
    rcases hcase with ⟨rfl, rfl⟩ | rfl
    · exact ⟨hpair.earlier, hpair.later⟩
    · rw [List.nil_append] at hSA
      exact ⟨readsPart_nil _, L, hSA ▸ hpair.reads, hpair.sub⟩
  unfold openAttached
  refine Meets.bind ((repairLog_meets h).conseq (fun _ h => h) (fun _ _ h => h)
    (fun _ _ h => h.elim) fun _ h => h) fun _ => ?_
  rw [hgarbage]
  refine Meets.bind (Q := fun _ s => s = settledAttach d) (Meets.pure fun _ h => h) fun _ => ?_
  refine Meets.bind (Q := fun _ s => ∃ data, s = { settledAttach d with data := data } ∧
      Redone mode H.flatten L.flatten d.data data)
    ((recover_meets (settledAttach d) (C := Keeps mode batches n) hdur.proper
      (hatt.records ▸ hreads) hpair.sub hpair.tearSafe hdur.slots hcov ?_).conseq (fun _ h => h)
        (fun _ _ h => h) (fun _ _ h => h.elim) fun _ h => h)
    fun _ => Meets.exists_pre fun data => ?_
  · intro data hslots hcov'
    have hdur' : Durable mode H (DurableStore.disk { settledAttach d with data := data }) :=
      ⟨hdur.proper, hdur.bound, hslots, e, E, A₀, L, (h.repair_eq e).trans hE,
        (h.repair_eq (1 - e)).trans hA₀, hpair, hcov'⟩
    exact hdur'.keeps hn hm hgiven
  refine Meets.assuming (p := Redone mode H.flatten L.flatten d.data data) (fun _ h => h.2)
    fun hredone => ?_
  obtain ⟨pending, hscan⟩ := hreads
  have hL : ∀ w ∈ L.flatten, w.lsn < (Wal.attach d.segments).1.nextLsn := fun w hw =>
    Scan.mem_lsn_of_run (S := (· < (Wal.attach d.segments).1.nextLsn)) hscan (by simp) hatt.below w
      (List.mem_append_right _ hw)
  obtain ⟨maximum, hmax, hmaxb, hbelow, hroom⟩ := nextLsn_ok hredone hdur.bound hL
  refine Meets.bind (Q := fun max' s => s = { settledAttach d with data := data } ∧
    max' = maximum) (Meets.attempt ?_ ?_) fun max' => ?_
  · rintro s ⟨rfl, -⟩ max' hr
    exact ⟨rfl, (Except.ok.inj (hmax.symm.trans hr)).symm⟩
  · rintro s ⟨rfl, -⟩ e' he
    cases hmax.symm.trans he
  refine Meets.assuming (p := max' = maximum) (fun _ h => h.2) ?_
  rintro rfl
  refine Meets.bind (Q := fun _ s => s = onWal (fun w => { w with
    nextLsn := max w.nextLsn (max' + 1) }) { settledAttach d with data := data }) ?_ fun _ => ?_
  · unfold ensureNextLsnAfter
    refine Meets.bind (Q := fun _ s => s = { settledAttach d with data := data })
      (Meets.read fun _ h => h.1) fun _ => Meets.ite (fun hfull => absurd hmaxb (by omega)) fun _ =>
        Meets.update ?_
    rintro s rfl
    rfl
  refine Meets.bind (Q := fun _ s => s = onWal (fun w => { w with
    nextLsn := max w.nextLsn (max' + 1) }) { settledAttach d with data := data })
    (Meets.attempt (fun _ h _ _ => h) ?_) fun next => ?_
  · rintro s rfl e' he
    have himages := committedPageImages_of_scan (hatt.records ▸ hscan)
    simp only [calculateNextPageId, onWal, settledAttach, DurableStore.attach, himages,
      Except.map] at he
    cases he
  refine Meets.bind (Q := fun _ s => s = { onWal (fun w => { w with
      nextLsn := max w.nextLsn (max' + 1) }) { settledAttach d with data := data } with
      allocator := { nextPageId := next } }) (Meets.update ?_) fun _ => ?_
  · rintro s rfl
    rfl
  refine Meets.bind (Q := fun _ s => s = tuned { settledAttach d with data := data } max' next)
    (Meets.update ?_) fun _ => ?_
  · rintro s rfl
    rfl
  have hopening : Opening mode H d L
      (tuned { settledAttach d with data := data } max' next) :=
    ⟨rfl, rfl, Nat.le_max_left _ _, hredone, ⟨rfl, rfl⟩⟩
  have hinv := hopening.inv hatt hdur.proper hbelow
    (Nat.max_lt.mpr ⟨hatt.bound, hmaxb⟩) hsorted (hSA ▸ hpair.readable) hparts.1 hparts.2
    ⟨pending, hscan⟩ hpair.sub hpair.tearSafe hsingle
  refine (finishOpen_meets hatt hinv hroom (hopening.spareFile hatt) hsingle).conseq
    (fun _ h => h) ?_ (fun _ _ h => h) fun _ h => hkeeps h
  rintro _ s ⟨hi, hidle, hspare⟩
  exact ⟨H, m, hn, hm, hgiven, hi, hidle, hspare⟩

end QuantaDb
