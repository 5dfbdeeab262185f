import QuantaDb.Mvcc.Isolation

/-!
# QuantaDb.Mvcc.Opening

The state that `MvccDatabase::open` builds from what the pages hold.

Pages that were freed and used again are gone, so the records need not be the
whole history.  It is enough that they hold the newest version of every key, and
that the newest manifest indexes the history (`Recovers`): the sweep at the end of
opening forgets everything else before the first snapshot is taken.
-/

namespace QuantaDb.Mvcc

open Timeline TreeMaps

namespace State

/-! ## the scan of the pages -/

/-- The references to a page. -/
def refs (records : Versions) (pageId : PageId) : Nat :=
  records.countP fun record => record.2.pageId == pageId

/-- The loop over the records collects the versions of each key and counts the
references to each page. -/
theorem foldlM_recoverRecord (records : Versions)
    (acc : Std.TreeMap Key (List Version) × Std.TreeMap PageId Nat)
    {versions : Std.TreeMap Key (List Version)} {pageRefs : Std.TreeMap PageId Nat}
    (h : records.foldlM recoverRecord acc = .ok (versions, pageRefs)) :
    (∀ key, versions.getD key [] = acc.1.getD key [] ++ onKey records key) ∧
      (∀ pageId, pageRefs.getD pageId 0 = acc.2.getD pageId 0 + refs records pageId) ∧
      ∀ key, (acc.1.getD key []).Pairwise (fun v w => v.timestamp ≠ w.timestamp) →
        (versions.getD key []).Pairwise fun v w => v.timestamp ≠ w.timestamp := by
  induction records generalizing acc with
  | nil =>
    cases h
    exact ⟨fun key => by simp [onKey], fun pageId => by simp [refs], fun key h => h⟩
  | cons record records ih =>
    obtain ⟨k, v⟩ := record
    rw [List.foldlM_cons] at h
    unfold recoverRecord at h
    simp only at h
    split at h
    · cases h
    · next hdup =>
      obtain ⟨hversions, hrefs, hpair⟩ := ih _ h
      refine ⟨fun key => ?_, fun pageId => ?_, fun key hold => hpair key ?_⟩
      · rw [hversions, getD_insert]
        by_cases heq : k = key
        · simp [heq, onKey]
        · simp [heq, onKey]
      · rw [hrefs, getD_insert]
        by_cases heq : v.pageId = pageId
        · simp [heq, refs]
          omega
        · simp [heq, refs]
      · rw [getD_insert]
        split
        · next heq =>
          subst heq
          refine List.pairwise_append.mpr ⟨hold, List.pairwise_singleton _ _, ?_⟩
          intro w hw w' hw'
          rw [List.mem_singleton] at hw'
          subst hw'
          intro hts
          exact hdup (List.any_eq_true.mpr ⟨w, hw, by simpa using hts⟩)
        · exact hold

theorem foldl_max_le {records : Versions} {start bound : Nat} :
    records.foldl (fun maximum record => max maximum record.2.timestamp) start ≤ bound ↔
      start ≤ bound ∧ ∀ key v, (key, v) ∈ records → v.timestamp ≤ bound := by
  induction records generalizing start with
  | nil => simp
  | cons record records ih =>
    obtain ⟨k, v⟩ := record
    rw [List.foldl_cons, ih]
    simp only
    constructor
    · rintro ⟨hstart, hall⟩
      refine ⟨by omega, fun key w hw => ?_⟩
      rcases List.mem_cons.mp hw with heq | hw
      · cases heq
        omega
      · exact hall key w hw
    · rintro ⟨hstart, hall⟩
      have := hall k v List.mem_cons_self
      exact ⟨by omega, fun key w hw => hall key w (List.mem_cons_of_mem _ hw)⟩

theorem maximumTimestamp_le {records : Versions} {bound : Nat} :
    maximumTimestamp records ≤ bound ↔ ∀ key v, (key, v) ∈ records → v.timestamp ≤ bound := by
  rw [maximumTimestamp, foldl_max_le]
  exact and_iff_right (Nat.zero_le _)

theorem le_maximumTimestamp {records : Versions} {key : Key} {v : Version}
    (h : (key, v) ∈ records) : v.timestamp ≤ maximumTimestamp records :=
  maximumTimestamp_le.mp (Nat.le_refl _) key v h

theorem ringLe_iff (a b : Nat × PageId) :
    ringLe a b = true ↔ a.1 < b.1 ∨ a.1 = b.1 ∧ a.2 ≤ b.2 := by
  simp [ringLe]

theorem usableGenerations_sorted (maximum : Nat) (manifests : List Generation) :
    Sorted Generation.timestamp (usableGenerations maximum manifests) := by
  have hord : (usableGenerations maximum manifests).Pairwise
      fun a b => ringLe (ringKey a) (ringKey b) = true := by
    refine List.pairwise_mergeSort (fun a b c hab hbc => ?_) (fun a b => ?_) _
    · rw [ringLe_iff] at hab hbc ⊢
      rcases hab with hab | ⟨hab, hle⟩
      · exact Or.inl (by omega)
      · exact hbc.imp (fun hbc => by omega) fun hbc => ⟨by omega, UInt64.le_trans hle hbc.2⟩
    · rw [Bool.or_eq_true, ringLe_iff, ringLe_iff]
      rcases Nat.lt_trichotomy (ringKey a).1 (ringKey b).1 with hlt | heq | hlt
      · exact Or.inl (Or.inl hlt)
      · exact (UInt64.le_total (ringKey a).2 (ringKey b).2).imp (fun h => Or.inr ⟨heq, h⟩)
          fun h => Or.inr ⟨heq.symm, h⟩
      · exact Or.inr (Or.inl hlt)
  exact hord.imp ringLe_timestamp

theorem mem_usableGenerations {maximum : Nat} {manifests : List Generation} {g : Generation} :
    g ∈ usableGenerations maximum manifests ↔ g ∈ manifests ∧ g.timestamp ≤ maximum := by
  simp [usableGenerations]

end State

/-- What the pages must hold of a history. -/
structure Recovers (H records : Versions) (manifests : List Generation) : Prop where
  unambiguous : Unambiguous H
  positive : ∀ key v, (key, v) ∈ H → 0 < v.timestamp
  mem : ∀ key v, (key, v) ∈ records → (key, v) ∈ H
  newest : ∀ key w, (key, w) ∈ H → ∃ v, (key, v) ∈ records ∧ w.timestamp ≤ v.timestamp
  indexes : ∀ g, (State.usableGenerations (State.maximumTimestamp records) manifests).getLast? =
    some g → Indexes H g.timestamp g.entries

namespace State

/-- The state of `open` before its sweep. -/
structure Scanned (records : Versions) (manifests : List Generation) (st : State) : Prop where
  on : ∀ key, st.on key = (onKey records key).mergeSort fun a b =>
  decide (a.timestamp ≤ b.timestamp)
  sorted : ∀ key, (st.on key).Pairwise fun v w => v.timestamp < w.timestamp
  pageRefs : ∀ pageId, st.pageRefs.getD pageId 0 = refs records pageId
  generations : st.generations = usableGenerations (maximumTimestamp records) manifests
  dirty : ∀ key, key ∈ st.dirtyKeys ↔ ∃ v ∈ onKey records key,
    (st.generations.getLast?.map Generation.timestamp).getD 0 < v.timestamp
  visible : st.visibleThrough = maximumTimestamp records
  next : st.nextCommitTimestamp = maximumTimestamp records + 1
  room : maximumTimestamp records + 1 < 2 ^ 64
  active : st.active = ∅
  intents : st.intents = ∅
  completed : st.completedTimestamps = ∅
  ids : st.nextTransactionId = 1

theorem open_eq {records : Versions} {manifests : List Generation} {freed : List PageId}
    {st : State}
    (h : State.open records manifests = .ok (freed, st)) :
    ∃ scanned, Scanned records manifests scanned ∧ (freed, st) = scanned.reclaimCovered none := by
  unfold State.open at h
  split at h
  · cases h
  · next versions pageRefs hfold =>
    simp only at h
    split at h
    · cases h
    · next hroom =>
      rw [Except.ok.injEq] at h
      refine ⟨_, ?_, h.symm⟩
      obtain ⟨hversions, hrefs, hdistinct⟩ := foldlM_recoverRecord records _ hfold
      simp only [Std.TreeMap.getD_emptyc, List.nil_append, Nat.zero_add]
        at hversions hrefs hdistinct
      have hget : ∀ key : Key, (versions.map fun _ versions =>
          versions.mergeSort fun a b => decide (a.timestamp ≤ b.timestamp))[key]? =
          versions[key]?.map fun versions =>
            versions.mergeSort fun a b => decide (a.timestamp ≤ b.timestamp) :=
        fun key => Std.TreeMap.getElem?_map
      have hon : ∀ key, (versions.map fun _ versions =>
          versions.mergeSort fun a b => decide (a.timestamp ≤ b.timestamp)).getD key [] =
          (onKey records key).mergeSort fun a b => decide (a.timestamp ≤ b.timestamp) := by
        intro key
        rw [Std.TreeMap.getD_eq_getD_getElem?, hget, ← hversions,
          Std.TreeMap.getD_eq_getD_getElem?]
        cases versions[key]? with
        | none => simp
        | some l => rfl
      refine ⟨hon, fun key => ?_, hrefs, rfl, fun key => ?_, rfl, rfl,
        by omega, rfl, rfl, rfl, rfl⟩
      · have hle := mergeSort_sorted Version.timestamp (onKey records key)
        have hne := hdistinct key List.Pairwise.nil
        rw [hversions] at hne
        have hne := ((List.mergeSort_perm (onKey records key) fun a b =>
          decide (a.timestamp ≤ b.timestamp)).pairwise_iff Ne.symm).mpr hne
        rw [← hon key] at hle hne
        exact (hle.and hne).imp fun h => Nat.lt_of_le_of_ne h.1 h.2
      · rw [unindexedKeys, mem_ofList_set, List.mem_filterMap]
        simp only [Option.ite_none_right_eq_some, Option.some.injEq, List.any_eq_true,
          decide_eq_true_eq]
        have hmem : ∀ v, v ∈ onKey records key ↔ v ∈ (versions.map fun _ versions =>
            versions.mergeSort fun a b => decide (a.timestamp ≤ b.timestamp)).getD key [] := by
          intro v
          rw [hon, List.mem_mergeSort]
        constructor
        · rintro ⟨⟨k, l⟩, hentry, ⟨v, hv, hlt⟩, rfl⟩
          rw [Std.TreeMap.mem_toList_iff_getElem?_eq_some] at hentry
          refine ⟨v, (hmem v).mpr ?_, hlt⟩
          rw [Std.TreeMap.getD_eq_getD_getElem?, hentry]
          exact hv
        · rintro ⟨v, hv, hlt⟩
          rw [hmem, Std.TreeMap.getD_eq_getD_getElem?] at hv
          cases hl : (versions.map fun _ versions =>
              versions.mergeSort fun a b => decide (a.timestamp ≤ b.timestamp))[key]? with
          | none =>
            rw [hl] at hv
            cases hv
          | some l =>
            rw [hl] at hv
            exact ⟨(key, l), Std.TreeMap.mem_toList_iff_getElem?_eq_some.mpr hl,
              ⟨v, hv, hlt⟩, rfl⟩

/-- **Opening** gives a state that serves every snapshot from its watermark on. -/
theorem open_retains {H records : Versions} {manifests : List Generation} {freed : List PageId}
    {st : State} (h : State.open records manifests = .ok (freed, st))
    (hr : Recovers H records manifests) :
    st.Retains H (maximumTimestamp records) := by
  obtain ⟨scanned, hs, heq⟩ := open_eq h
  have hst : st = (scanned.reclaimCovered none).2 := congrArg Prod.snd heq
  have hold : scanned.oldestActiveSnapshot = maximumTimestamp records := by
    rw [oldestActiveSnapshot, hs.active, hs.visible]
    rfl
  have hmem : ∀ {key v}, v ∈ scanned.on key ↔ (key, v) ∈ records := fun {key v} => by
    rw [hs.on, List.mem_mergeSort, mem_onKey]
  have hord : ∀ key, Sorted Version.timestamp (scanned.on key) := fun key =>
    (hs.sorted key).imp Nat.le_of_lt
  -- the sweep keeps the newest version of a key only
  have hkept : ∀ key, kept Version.timestamp (scanned.on key) (maximumTimestamp records) =
      (visibleVersion (scanned.on key) (maximumTimestamp records)).toList := fun key =>
    kept_of_le fun v hv => le_maximumTimestamp (hmem.mp hv)
  have hnewest : ∀ {key v}, visibleVersion (scanned.on key) (maximumTimestamp records) = some v →
      (key, v) ∈ records ∧ ∀ w, (key, w) ∈ H → w.timestamp ≤ v.timestamp := by
    intro key v hv
    have hl := latest_isLatest (hord key) hv
    refine ⟨hmem.mp hl.mem, fun w hw => ?_⟩
    obtain ⟨u, hu, hle⟩ := hr.newest key w hw
    exact Nat.le_trans hle (hl.max u (hmem.mpr hu) (le_maximumTimestamp hu))
  have hon : ∀ key, st.on key =
    (visibleVersion (scanned.on key) (maximumTimestamp records)).toList ∨
      st.on key = [] ∧ ∃ v g, visibleVersion (scanned.on key) (maximumTimestamp records) = some v ∧
        g ∈ st.generations ∧ v.timestamp ≤ g.timestamp := by
    intro key
    have hcases := scanned.on_reclaimCovered none key
    rw [hold, ← hst, hkept] at hcases
    refine hcases.imp_right fun ⟨hnil, _, _, v, g, hv, hg, hle⟩ => ⟨hnil, v, g, ?_, ?_, hle⟩
    · cases hvis : visibleVersion (scanned.on key) (maximumTimestamp records) with
      | none => rw [hvis] at hv; cases hv
      | some u => rw [hvis] at hv; cases hv; rfl
    · have hmem := List.mem_of_find?_eq_some hg
      exact List.mem_reverse.mp hmem
  have hsub : ∀ {key v}, v ∈ st.on key →
      visibleVersion (scanned.on key) (maximumTimestamp records) = some v := by
    intro key v hv
    rcases hon key with heq | ⟨heq, -⟩
    · rw [heq, Option.mem_toList] at hv
      exact hv
    · rw [heq] at hv
      cases hv
  have hvis : ∀ {key w}, (key, w) ∈ H → ∃ v,
      visibleVersion (scanned.on key) (maximumTimestamp records) = some v := by
    intro key w hw
    obtain ⟨u, hu, -⟩ := hr.newest key w hw
    exact exists_latest (hmem.mpr hu) (le_maximumTimestamp hu)
  have hring : st.generations =
      (latest Generation.timestamp scanned.generations (maximumTimestamp records)).toList := by
    rw [hst]
    show kept Generation.timestamp scanned.generations scanned.oldestActiveSnapshot = _
    rw [hold]
    refine kept_of_le fun g hg => ?_
    rw [hs.generations] at hg
    exact (mem_usableGenerations.mp hg).2
  have hlast : ∀ g ∈ st.generations, g.timestamp ≤ maximumTimestamp records ∧
      (usableGenerations (maximumTimestamp records) manifests).getLast? = some g := by
    intro g hg
    rw [hring, Option.mem_toList, hs.generations] at hg
    have hle := (latest_isLatest (usableGenerations_sorted _ _) hg).le
    obtain ⟨-, before, after, hsplit, hafter⟩ := latest_split hg
    refine ⟨hle, ?_⟩
    rw [hsplit]
    cases after with
    | nil => simp
    | cons b after =>
      have hb : b ∈ usableGenerations (maximumTimestamp records) manifests := by
        rw [hsplit]
        simp
      have := (mem_usableGenerations.mp hb).2
      have := hafter b List.mem_cons_self
      omega
  have hstvis : st.visibleThrough = maximumTimestamp records := by
    rw [hst]
    exact hs.visible
  refine ⟨hr.unambiguous, fun key => ?_, fun key v hv => ?_, fun key v w hv hw hle => ?_,
    fun key w hw hgone => ?_, Nat.le_of_eq hstvis.symm, fun id s hid => ?_, ?_, fun g hg => ?_,
    fun key w hw hg => ?_⟩
  · rcases hon key with heq | ⟨heq, -⟩
    · rw [heq]
      cases visibleVersion (scanned.on key) (maximumTimestamp records) <;> simp
    · rw [heq]
      exact List.Pairwise.nil
  · exact hr.mem key v (hnewest (hsub hv)).1
  · obtain ⟨hin, hmax⟩ := hnewest (hsub hv)
    have := hmax w hw
    rwa [← hr.unambiguous key v w (hr.mem key v hin) hw (by omega)]
  · obtain ⟨v, hv⟩ := hvis hw
    obtain ⟨hin, hmax⟩ := hnewest hv
    rcases hon key with heq | ⟨-, u, g, hu, hg, hle⟩
    · left
      have hvin : v ∈ st.on key := by
        rw [heq, hv]
        simp
      refine ⟨v, hvin, ?_, le_maximumTimestamp hin⟩
      have := hmax w hw
      by_contra hlt
      exact hgone (hr.unambiguous key v w (hr.mem key v hin) hw (by omega) ▸ hvin)
    · right
      rw [hv, Option.some.injEq] at hu
      subst hu
      exact ⟨g, hg, Nat.le_trans (hmax w hw) hle, (hlast g hg).1⟩
  · rw [hst] at hid
    have hnone : (scanned.reclaimCovered none).2.active = ∅ := hs.active
    rw [hnone] at hid
    simp at hid
  · rw [hring]
    cases latest Generation.timestamp scanned.generations (maximumTimestamp records) <;> simp
  · exact ⟨hstvis ▸ (hlast g hg).1, hr.indexes g (hlast g hg).2⟩
  · obtain ⟨u, hu, hle⟩ := hr.newest key w hw
    have hdirty : st.dirtyKeys = scanned.dirtyKeys := by rw [hst]; rfl
    rw [hdirty, hs.dirty]
    refine ⟨u, mem_onKey.mpr hu, ?_⟩
    cases hl : scanned.generations.getLast? with
    | none => exact hr.positive key u (hr.mem key u hu)
    | some g =>
      have hin := List.mem_of_getLast? hl
      rw [hs.generations] at hin
      obtain ⟨b, hb⟩ := exists_latest (hs.generations ▸ hin) (mem_usableGenerations.mp hin).2
      have hbst : b ∈ st.generations := by
        rw [hring, hb]
        simp
      have hbl := (hlast b hbst).2
      rw [← hs.generations, hl, Option.some.injEq] at hbl
      have := hg b hbst
      rw [hbl]
      exact Nat.lt_of_lt_of_le this hle

end State

/-- A database that was just opened on pages that hold a history: nobody uses it
yet. -/
def Core.Opened (c : Core) : Prop :=
  ∃ records manifests freed, State.open records manifests = .ok (freed, c.db) ∧
    Recovers c.recovered records manifests ∧ c = { db := c.db, recovered := c.recovered }

/-- An empty database. -/
theorem Core.opened_empty : Core.Opened { db := {} } := by
  have hring : State.usableGenerations 0 [] = [] := by simp [State.usableGenerations]
  refine ⟨[], [], [], ?_, ⟨?_, ?_, ?_, ?_, ?_⟩, rfl⟩
  · unfold State.open
    simp only [State.maximumTimestamp, List.foldl_nil, hring]
    rfl
  all_goals simp [Unambiguous, State.maximumTimestamp, hring]

/-- The newest record is as new as the history. -/
theorem Recovers.maximumTimestamp_eq {H records : Versions} {manifests : List Generation}
    (h : Recovers H records manifests) :
    State.maximumTimestamp records = State.maximumTimestamp H := by
  refine Nat.le_antisymm (State.maximumTimestamp_le.mpr fun key v hv => ?_)
    (State.maximumTimestamp_le.mpr fun key w hw => ?_)
  · exact State.le_maximumTimestamp (h.mem key v hv)
  · obtain ⟨v, hv, hle⟩ := h.newest key w hw
    exact Nat.le_trans hle (State.le_maximumTimestamp hv)

/-- **An opened database** satisfies the invariant. -/
theorem Core.Opened.sound {c : Core} (h : c.Opened) : Sound c := by
  obtain ⟨records, manifests, freed, hopen, hr, hc⟩ := h
  have hret := State.open_retains hopen hr
  obtain ⟨scanned, hs, heq⟩ := State.open_eq hopen
  have hdb : c.db = (scanned.reclaimCovered none).2 := congrArg Prod.snd heq
  have hvis : c.db.visibleThrough = State.maximumTimestamp c.recovered := by
    rw [hdb, ← hr.maximumTimestamp_eq]
    exact hs.visible
  have hnext : c.db.nextCommitTimestamp = State.maximumTimestamp c.recovered + 1 := by
    rw [hdb, ← hr.maximumTimestamp_eq]
    exact hs.next
  have hcompleted : c.db.completedTimestamps = ∅ := by
    rw [hdb]
    exact hs.completed
  have hactive : c.db.active = ∅ := by
    rw [hdb]
    exact hs.active
  have hintents : c.db.intents = ∅ := by
    rw [hdb]
    exact hs.intents
  have hroom := hs.room
  rw [hr.maximumTimestamp_eq] at hroom
  have hhist : c.history = c.recovered := by
    rw [hc]
    simp [Core.history]
  have hprep : c.prepared = ∅ := by rw [hc]
  have htx : c.transactions = ∅ := by rw [hc]
  have hclosing : c.closing = ∅ := by rw [hc]
  have hfin : c.finished = [] := by rw [hc]
  have hbuilds : c.builds = [] := by rw [hc]
  refine ⟨⟨?_, ?_, ?_, ?_, ?_, ?_, ?_, ?_, ?_⟩, ⟨?_, ?_, ?_, ?_, ?_, ?_, ?_⟩, ⟨?_, ?_, ?_, ?_⟩,
    ⟨State.maximumTimestamp records, hhist ▸ hret⟩, ?_⟩
  · rw [hnext]; exact hroom
  · rw [hvis]; rfl
  · rw [hvis, hnext]; omega
  · simp [hcompleted]
  · rw [hvis, hnext]; omega
  · simp [hprep]
  · simp [hfin]
  · rw [hvis, hcompleted]
    intro t ht hor
    simp only [Core.opened, Std.TreeSet.not_mem_emptyc, or_false] at ht hor
    omega
  · simp [hfin]
  · simp [hactive]
  · simp [htx]
  · simp [hprep]
  · simp [hprep]
  · simp [hintents]
  · simp [hclosing]
  · simp [hfin]
  · simp [Core.Commits, hprep, hfin]
  · simp [hprep]
  · simp [Core.Commits, hprep, hfin]
  · simp [hprep]
  · simp [hbuilds]

end QuantaDb.Mvcc
