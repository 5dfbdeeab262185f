import QuantaDb.Mvcc.Snapshot

/-!
# QuantaDb.Mvcc.Reclaim

Each function on the state keeps what snapshots need (`State.Retains`).

Committing adds versions behind the watermark.  Publishing a generation lets keys
leave the dirty set; the sweep then raises the floor to the oldest active
snapshot and forgets what lies below it.
-/

namespace QuantaDb.Mvcc

open Timeline TreeMaps

namespace State

variable {H : Versions} {floor : Nat} {st st' : State}

/-! ## committing -/

/-- A version newer than all there are goes to the end. -/
theorem insertVersion_append {versions : List Version} {version : Version}
    (h : ∀ v ∈ versions, v.timestamp < version.timestamp) :
    insertVersion versions version = some (versions ++ [version]) := by
  have htake : (versions.takeWhile fun v => decide (v.timestamp < version.timestamp)) = versions :=
    List.takeWhile_eq_self_iff.mpr fun v hv => by simpa using h v hv
  have hdrop : (versions.dropWhile fun v => decide (v.timestamp < version.timestamp)) = [] :=
    List.dropWhile_eq_nil_iff.mpr fun v hv => by simpa using h v hv
  simp [insertVersion, htake, hdrop]

/-- One write of a commit is published. -/
def publishOne (timestamp : Nat) (st : State) (write : (Key × Option Bytes) × PageId) : State :=
  { st with
    versions := st.versions.insert write.1.1
      (st.on write.1.1 ++ [⟨timestamp, write.1.2, write.2⟩])
    pageRefs := st.pageRefs.insert write.2 (st.pageRefs.getD write.2 0 + 1)
    dirtyKeys := st.dirtyKeys.insert write.1.1 }

theorem on_publishOne (timestamp : Nat) (st : State) (write : (Key × Option Bytes) × PageId)
    (key : Key) : (publishOne timestamp st write).on key =
      if write.1.1 = key then st.on key ++ [⟨timestamp, write.1.2, write.2⟩] else st.on key := by
  simp only [publishOne, State.on, getD_insert]
  split
  · next heq => rw [heq]
  · rfl

/-- The loop of `finish_prepared` publishes every write, if no key has a version
as new. -/
theorem publishVersions_eq (timestamp position : Nat)
    (writes : List ((Key × Option Bytes) × PageId))
    (st : State) (hkeys : (writes.map fun write => write.1.1).Nodup)
    (hnew : ∀ write ∈ writes, ∀ v ∈ st.on write.1.1, v.timestamp < timestamp) :
    publishVersions timestamp position writes st =
      (none, writes.foldl (publishOne timestamp) st) := by
  induction writes generalizing position st with
  | nil => rfl
  | cons write writes ih =>
    obtain ⟨⟨key, value⟩, pageId⟩ := write
    rw [List.map_cons, List.nodup_cons] at hkeys
    have hone : insertVersion (st.on key) ⟨timestamp, value, pageId⟩ =
        some (st.on key ++ [⟨timestamp, value, pageId⟩]) :=
      insertVersion_append (hnew _ List.mem_cons_self)
    rw [publishVersions, hone, List.foldl_cons]
    refine ih (position + 1) (publishOne timestamp st ((key, value), pageId)) hkeys.2
      fun write' hw v hv => ?_
    have hne : key ≠ write'.1.1 := fun heq => hkeys.1 (List.mem_map.mpr ⟨write', hw, heq.symm⟩)
    rw [on_publishOne, if_neg hne] at hv
    exact hnew write' (List.mem_cons_of_mem _ hw) v hv

/-- The version a write becomes. -/
def versionOf (timestamp : Nat) (write : (Key × Option Bytes) × PageId) : Key × Version :=
  (write.1.1, ⟨timestamp, write.1.2, write.2⟩)

theorem Retains.publishOne (h : Retains H floor st) {timestamp : Nat}
    (hvis : st.visibleThrough < timestamp) {write : (Key × Option Bytes) × PageId}
    (hnew : ∀ w, (write.1.1, w) ∈ H → w.timestamp < timestamp) :
    Retains (H ++ [versionOf timestamp write]) floor (publishOne timestamp st write) := by
  obtain ⟨⟨key, value⟩, pageId⟩ := write
  have hmem : ∀ {k v}, (k, v) ∈ H ++ [versionOf timestamp ((key, value), pageId)] ↔
      (k, v) ∈ H ∨ k = key ∧ v = ⟨timestamp, value, pageId⟩ := by
    intro k v
    simp [versionOf]
  have hold : ∀ v ∈ st.on key, v.timestamp < timestamp := fun v hv => hnew v (h.mem key v hv)
  have hon : ∀ {k v}, v ∈ (State.publishOne timestamp st ((key, value), pageId)).on k ↔
      v ∈ st.on k ∨ k = key ∧ v = ⟨timestamp, value, pageId⟩ := by
    intro k v
    rw [on_publishOne]
    split
    · next heq =>
      simp only at heq
      subst heq
      simp
    · next hne =>
      have : ¬ k = key := fun heq => hne heq.symm
      simp [this]
  have hunamb : Unambiguous (H ++ [versionOf timestamp ((key, value), pageId)]) := by
    intro k v w hv hw heq
    rw [hmem] at hv hw
    rcases hv with hv | ⟨rfl, rfl⟩
    · rcases hw with hw | ⟨rfl, rfl⟩
      · exact h.unambiguous k v w hv hw heq
      · exact absurd heq (Nat.ne_of_lt (hnew v hv))
    · rcases hw with hw | ⟨-, rfl⟩
      · exact absurd heq (Nat.ne_of_gt (hnew w hw))
      · rfl
  have hagree : AgreeUpTo st.visibleThrough H
    (H ++ [versionOf timestamp ((key, value), pageId)]) := by
    refine agreeUpTo_append fun k v hv => ?_
    simp only [versionOf, List.mem_singleton, Prod.mk.injEq] at hv
    rw [hv.2]
    exact hvis
  refine ⟨hunamb, fun k => ?_, fun k v hv => ?_, fun k v w hv hw hle => ?_, fun k w hw hgone => ?_,
    h.floor_le, h.active, h.ring, fun g hg => ?_, fun k w hw hg => ?_⟩
  · rw [on_publishOne]
    split
    · next heq =>
      simp only at heq
      subst heq
      refine List.pairwise_append.mpr ⟨h.sorted key, List.pairwise_singleton _ _, ?_⟩
      intro v hv w hw
      rw [List.mem_singleton] at hw
      rw [hw]
      exact hold v hv
    · exact h.sorted k
  · rcases hon.mp hv with hv | hv
    · exact hmem.mpr (Or.inl (h.mem k v hv))
    · exact hmem.mpr (Or.inr hv)
  · rw [hmem] at hw
    rw [hon] at hv ⊢
    rcases hw with hw | hw
    · rcases hv with hv | ⟨rfl, rfl⟩
      · exact Or.inl (h.upward k v w hv hw hle)
      · exact absurd hle (Nat.not_le.mpr (hnew w hw))
    · exact Or.inr hw
  · rcases hmem.mp hw with hw | hw
    · rcases h.lost k w hw fun hin => hgone (hon.mpr (Or.inl hin)) with ⟨v, hv, hlt⟩ | hg
      · exact Or.inl ⟨v, hon.mpr (Or.inl hv), hlt⟩
      · exact Or.inr hg
    · exact absurd (hon.mpr (Or.inr hw)) hgone
  · obtain ⟨hle, hidx⟩ := h.indexes g hg
    exact ⟨hle, hidx.congr hagree h.unambiguous hunamb hle⟩
  · refine (mem_insert_set _ _ _).mpr ?_
    rcases hmem.mp hw with hw | ⟨rfl, -⟩
    · exact Or.inr (h.dirty k w hw hg)
    · exact Or.inl rfl

/-- All writes of a commit. -/
theorem Retains.publishAll (h : Retains H floor st) {timestamp : Nat}
    (hvis : st.visibleThrough < timestamp) (writes : List ((Key × Option Bytes) × PageId))
    (hkeys : (writes.map fun write => write.1.1).Nodup)
    (hnew : ∀ write ∈ writes, ∀ w, (write.1.1, w) ∈ H → w.timestamp < timestamp) :
    Retains (H ++ writes.map (versionOf timestamp)) floor
      (writes.foldl (State.publishOne timestamp) st) := by
  induction writes generalizing H st with
  | nil => simpa using h
  | cons write writes ih =>
    rw [List.map_cons, List.nodup_cons] at hkeys
    rw [List.foldl_cons, List.map_cons, ← List.singleton_append, ← List.append_assoc]
    refine ih (h.publishOne hvis (hnew write List.mem_cons_self)) hvis hkeys.2
      fun write' hw w hmem => ?_
    rcases List.mem_append.mp hmem with hmem | hmem
    · exact hnew write' (List.mem_cons_of_mem _ hw) w hmem
    · simp only [versionOf, List.mem_singleton, Prod.mk.injEq] at hmem
      exact absurd (List.mem_map.mpr ⟨write', hw, hmem.1⟩) hkeys.1

/-- Publishing changes only the map, the references and the dirty keys. -/
theorem foldl_publishOne (timestamp : Nat) (writes : List ((Key × Option Bytes) × PageId))
    (st : State) : ∃ versions pageRefs dirtyKeys,
      writes.foldl (State.publishOne timestamp) st = { st with versions, pageRefs, dirtyKeys } := by
  induction writes generalizing st with
  | nil => exact ⟨_, _, _, rfl⟩
  | cons write writes ih =>
    obtain ⟨versions, pageRefs, dirtyKeys, heq⟩ := ih (State.publishOne timestamp st write)
    exact ⟨versions, pageRefs, dirtyKeys, heq⟩

/-! ## snapshots -/

/-- Only the watermark moved, or intents and counters. -/
theorem Retains.congr (h : Retains H floor st) (hversions : st'.versions = st.versions)
    (hring : st'.generations = st.generations) (hdirty : st'.dirtyKeys = st.dirtyKeys)
    (hvis : st.visibleThrough ≤ st'.visibleThrough)
    (hactive : ∀ (id : Nat) s, st'.active[id]? = some s →
      st.active[id]? = some s ∨ floor ≤ s ∧ s ≤ st'.visibleThrough) : Retains H floor st' := by
  have hon : ∀ key, st'.on key = st.on key := fun key => by rw [State.on, hversions]
  refine ⟨h.unambiguous, fun key => hon key ▸ h.sorted key, fun key => hon key ▸ h.mem key,
    fun key => hon key ▸ h.upward key, fun key => ?_, Nat.le_trans h.floor_le hvis,
    fun id s hs => ?_,
    hring ▸ h.ring, fun g hg => ?_, fun key w hw hg => ?_⟩
  · rw [hon, hring]
    exact h.lost key
  · rcases hactive id s hs with hold | hnew
    · exact ⟨(h.active id s hold).1, Nat.le_trans (h.active id s hold).2 hvis⟩
    · exact hnew
  · rw [hring] at hg
    exact ⟨Nat.le_trans (h.indexes g hg).1 hvis, (h.indexes g hg).2⟩
  · rw [hring] at hg
    rw [hdirty]
    exact h.dirty key w hw hg

theorem Retains.endTransaction (h : Retains H floor st) (id : Nat) :
    Retains H floor (st.endTransaction id) := by
  refine h.congr rfl rfl rfl (Nat.le_refl _) fun id' s hid => ?_
  rw [State.endTransaction, get_erase] at hid
  split at hid
  · cases hid
  · exact Or.inl hid

theorem oldestActiveSnapshot_le (st : State) {id s : Nat} (h : st.active[id]? = some s) :
    st.oldestActiveSnapshot ≤ s := by
  have hmem : s ∈ st.active.toList.map Prod.snd :=
    List.mem_map.mpr ⟨(id, s), Std.TreeMap.mem_toList_iff_getElem?_eq_some.mpr h, rfl⟩
  unfold oldestActiveSnapshot
  cases hm : (st.active.toList.map Prod.snd).min? with
  | none => simp [List.min?_eq_none_iff.mp hm] at hmem
  | some m => exact (List.min?_eq_some_iff.mp hm).2 s hmem

/-- The oldest active snapshot is one of the active ones or the watermark. -/
theorem oldestActiveSnapshot_cases (st : State) :
    (∃ id : Nat, st.active[id]? = some st.oldestActiveSnapshot) ∨
      st.oldestActiveSnapshot = st.visibleThrough := by
  unfold oldestActiveSnapshot
  cases hm : (st.active.toList.map Prod.snd).min? with
  | none => exact Or.inr rfl
  | some m =>
    left
    obtain ⟨⟨id, s⟩, hmem, rfl⟩ := List.mem_map.mp (List.min?_eq_some_iff.mp hm).1
    exact ⟨id, Std.TreeMap.mem_toList_iff_getElem?_eq_some.mp hmem⟩

theorem Retains.le_oldest (h : Retains H floor st) : floor ≤ st.oldestActiveSnapshot := by
  rcases st.oldestActiveSnapshot_cases with ⟨id, hid⟩ | heq
  · exact (h.active id _ hid).1
  · rw [heq]
    exact h.floor_le

theorem Retains.oldest_le (h : Retains H floor st) :
    st.oldestActiveSnapshot ≤ st.visibleThrough := by
  rcases st.oldestActiveSnapshot_cases with ⟨id, hid⟩ | heq
  · exact (h.active id _ hid).2
  · exact Nat.le_of_eq heq

/-! ## publishing a generation -/

theorem ringLe_timestamp {a b : Generation} (h : ringLe (ringKey a) (ringKey b) = true) :
    a.timestamp ≤ b.timestamp := by
  have hor : a.timestamp < b.timestamp ∨
      a.timestamp = b.timestamp ∧ a.manifestPageId ≤ b.manifestPageId := by
    unfold ringLe ringKey at h
    simpa using h
  omega

theorem ringLe_of_not {a b : Generation} (h : ringLe (ringKey a) (ringKey b) = false) :
    b.timestamp ≤ a.timestamp := by
  by_contra hlt
  have hnot : ¬a.timestamp < b.timestamp := fun hlt => by
    simp [ringLe, ringKey, hlt] at h
  omega

/-- The ring stays in order and gains the generation, unless it is there. -/
theorem publishGeneration_cases (st : State) (g : Generation)
    (hs : Sorted Generation.timestamp st.generations) :
    (st.publishGeneration g = st ∧ ∃ g' ∈ st.generations, g'.timestamp = g.timestamp) ∨
      ∃ ring, st.publishGeneration g = { st with generations := ring } ∧
        Sorted Generation.timestamp ring ∧ ∀ g', g' ∈ ring ↔ g' ∈ st.generations ∨ g' = g := by
  unfold publishGeneration
  simp only
  generalize hp : (fun existing => ringLe (ringKey existing) (ringKey g)) = p
  have hle : ∀ a, p a = true → a.timestamp ≤ g.timestamp := fun a ha => by
    rw [← hp] at ha
    exact ringLe_timestamp ha
  split
  · next hdup =>
    obtain ⟨previous, hlast, hkey⟩ := (Option.any_eq_true _ _).mp hdup
    refine Or.inl ⟨rfl, previous, ?_, ?_⟩
    · exact List.takeWhile_sublist _ |>.subset (List.mem_of_getLast? hlast)
    · exact congrArg Prod.fst (beq_iff_eq.mp hkey)
  · right
    refine ⟨_, rfl, ?_, fun g' => ?_⟩
    · have happ := List.takeWhile_append_dropWhile (p := p) (l := st.generations)
      have hs' := hs
      rw [← happ] at hs'
      obtain ⟨hbefore, hafter, hcross⟩ := List.pairwise_append.mp hs'
      have hge : ∀ b ∈ st.generations.dropWhile p, g.timestamp ≤ b.timestamp := by
        intro b hb
        cases hd : st.generations.dropWhile p with
        | nil => rw [hd] at hb; cases hb
        | cons first rest =>
          have hfirst : p first = false := by
            have := List.head?_dropWhile_not p st.generations
            rw [hd] at this
            simpa using this
          rw [← hp] at hfirst
          rw [hd] at hb hafter
          rcases List.mem_cons.mp hb with rfl | hb
          · exact ringLe_of_not hfirst
          · exact Nat.le_trans (ringLe_of_not hfirst) (List.rel_of_pairwise_cons hafter hb)
      refine List.pairwise_append.mpr ⟨hbefore, List.pairwise_cons.mpr ⟨hge, hafter⟩, ?_⟩
      intro a ha b hb
      have hag := hle a (List.mem_takeWhile_imp ha)
      rcases List.mem_cons.mp hb with rfl | hb
      · exact hag
      · exact Nat.le_trans hag (hge b hb)
    · conv_rhs => rw [← List.takeWhile_append_dropWhile (p := p) (l := st.generations)]
      simp only [List.mem_append, List.mem_cons]
      tauto

/-- A generation that indexes the history may join the ring; the keys it brings up
to date are no longer dirty. -/
theorem Retains.generation (h : Retains H floor st) {g : Generation}
    (hvis : g.timestamp ≤ st.visibleThrough) (hg : Indexes H g.timestamp g.entries) :
    Retains H floor ((st.publishGeneration g).retainDirty g.timestamp) := by
  obtain ⟨ring, heq, hsorted, hold, hidx, hsame⟩ : ∃ ring,
      st.publishGeneration g = { st with generations := ring } ∧
      Sorted Generation.timestamp ring ∧ (∀ g' ∈ st.generations, g' ∈ ring) ∧
      (∀ g' ∈ ring, g'.timestamp ≤ st.visibleThrough ∧ Indexes H g'.timestamp g'.entries) ∧
      ∃ g' ∈ ring, g'.timestamp = g.timestamp := by
    rcases st.publishGeneration_cases g h.ring with ⟨heq, hdup⟩ | ⟨ring, heq, hsorted, hmem⟩
    · exact ⟨st.generations, heq, h.ring, fun _ h => h, h.indexes, hdup⟩
    · refine ⟨ring, heq, hsorted, fun g' hg' => (hmem g').mpr (Or.inl hg'), fun g' hg' => ?_,
        g, (hmem g).mpr (Or.inr rfl), rfl⟩
      rcases (hmem g').mp hg' with hg' | rfl
      · exact h.indexes g' hg'
      · exact ⟨hvis, hg⟩
  rw [heq]
  refine ⟨h.unambiguous, h.sorted, h.mem, h.upward, fun key w hw hgone => ?_, h.floor_le, h.active,
    hsorted, hidx, fun key w hw hnewer => ?_⟩
  · exact (h.lost key w hw hgone).imp_right fun ⟨g', hg', hle⟩ => ⟨g', hold g' hg', hle⟩
  · refine (mem_filter_set _ _ _).mpr ⟨h.dirty key w hw fun g' hg' => hnewer g' (hold g' hg'), ?_⟩
    obtain ⟨g', hg', hts⟩ := hsame
    have hlt := hnewer g' hg'
    rw [List.any_eq_true]
    by_cases hin : w ∈ st.on key
    · exact ⟨w, hin, by simp; omega⟩
    · rcases h.lost key w hw hin with ⟨v, hv, hwv, -⟩ | ⟨g₀, hg₀, hle, -⟩
      · exact ⟨v, hv, by simp; omega⟩
      · have := hnewer g₀ (hold g₀ hg₀)
        omega

/-! ## the sweep -/

/-- What the sweep leaves of a key: all from its newest version at the floor on,
or nothing, where a generation has that version and no other is left. -/
theorem on_reclaimCovered (st : State) (protect : Option PageId) (key : Key) :
    (st.reclaimCovered protect).2.on key =
        kept Version.timestamp (st.on key) st.oldestActiveSnapshot ∨
      (st.reclaimCovered protect).2.on key = [] ∧ key ∉ st.dirtyKeys ∧ key ∉ st.intents ∧
      ∃ v g, kept Version.timestamp (st.on key) st.oldestActiveSnapshot = [v] ∧
        latest Generation.timestamp (st.reclaimCovered protect).2.generations
          st.oldestActiveSnapshot = some g ∧ v.timestamp ≤ g.timestamp := by
  have hget : (st.reclaimCovered protect).2.on key = ((st.versions[key]?.bind
      (st.sweepKey st.oldestActiveSnapshot
        ((latest Generation.timestamp (st.reclaimCovered protect).2.generations
          st.oldestActiveSnapshot).map Generation.timestamp) key))).getD [] := by
    show Std.TreeMap.getD _ key [] = _
    rw [Std.TreeMap.getD_eq_getD_getElem?, reclaimCovered]
    simp only
    rw [Std.TreeMap.getElem?_filterMap']
  have hon : st.on key = st.versions[key]?.getD [] := Std.TreeMap.getD_eq_getD_getElem?
  rw [hget, hon]
  cases hv : st.versions[key]? with
  | none =>
    left
    rfl
  | some versions =>
    rw [Option.bind_some, Option.getD_some]
    unfold sweepKey
    cases hc : latest Generation.timestamp (st.reclaimCovered protect).2.generations
      st.oldestActiveSnapshot with
    | none => exact Or.inl rfl
    | some g =>
      simp only [Option.map_some]
      split
      · next hcov =>
        rw [Bool.and_eq_true, Bool.and_eq_true, Bool.not_eq_true', Bool.not_eq_true'] at hcov
        obtain ⟨⟨hfull, hdirty⟩, hintent⟩ := hcov
        refine Or.inr ⟨rfl, ?_, ?_, ?_⟩
        · rw [← Std.TreeSet.contains_iff_mem, hdirty]
          simp
        · rw [← Std.TreeMap.contains_iff_mem, hintent]
          simp
        · unfold fullyCovered at hfull
          split at hfull
          · next v hk => exact ⟨v, g, hk, rfl, by simpa using hfull⟩
          · cases hfull
      · exact Or.inl rfl

/-- **The sweep** raises the floor to the oldest active snapshot. -/
theorem Retains.reclaimCovered (h : Retains H floor st) (protect : Option PageId) :
    Retains H st.oldestActiveSnapshot (st.reclaimCovered protect).2 := by
  have hfloor := h.le_oldest
  -- a version that was in the map is below one that is kept, or kept
  have hkept : ∀ {key v}, v ∈ st.on key →
      v ∈ kept Version.timestamp (st.on key) st.oldestActiveSnapshot ∨
        ∃ b ∈ kept Version.timestamp (st.on key) st.oldestActiveSnapshot,
          v.timestamp < b.timestamp ∧ b.timestamp ≤ st.oldestActiveSnapshot := by
    intro key v hv
    rcases mem_drained_or_kept Version.timestamp st.oldestActiveSnapshot hv
      with hd | hk
    · obtain ⟨b, hb, -, hle⟩ := exists_kept_of_mem_drained (h.ordered key) hd
      have hs := h.sorted key
      rw [← drained_append_kept Version.timestamp (st.on key) st.oldestActiveSnapshot] at hs
      exact Or.inr ⟨b, hb, (List.pairwise_append.mp hs).2.2 v hd b hb, hle⟩
    · exact Or.inl hk
  have hring : ∀ g ∈ st.generations, g.timestamp ≤ st.oldestActiveSnapshot →
      ∃ b ∈ (st.reclaimCovered protect).2.generations,
        g.timestamp ≤ b.timestamp ∧ b.timestamp ≤ st.oldestActiveSnapshot := by
    intro g hg hle
    rcases mem_drained_or_kept Generation.timestamp st.oldestActiveSnapshot hg
      with hd | hk
    · exact exists_kept_of_mem_drained h.ring hd
    · exact ⟨g, hk, Nat.le_refl _, hle⟩
  have hsub : ∀ {key v}, v ∈ (st.reclaimCovered protect).2.on key →
      v ∈ kept Version.timestamp (st.on key) st.oldestActiveSnapshot := by
    intro key v hv
    rcases st.on_reclaimCovered protect key with heq | ⟨heq, -⟩
    · rwa [heq] at hv
    · rw [heq] at hv
      cases hv
  refine ⟨h.unambiguous, fun key => ?_, fun key v hv => ?_, fun key v w hv hw hle => ?_,
    fun key w hw hgone => ?_, h.oldest_le, fun id s hs => ⟨st.oldestActiveSnapshot_le hs,
      (h.active id s hs).2⟩, ?_, fun g hg => ?_, fun key w hw hnewer => ?_⟩
  · rcases st.on_reclaimCovered protect key with heq | ⟨heq, -⟩
    · rw [heq]
      exact (h.sorted key).sublist (kept_sublist _ _)
    · rw [heq]
      exact List.Pairwise.nil
  · exact h.mem key v ((kept_sublist _ _).subset (hsub hv))
  · have hold := h.upward key v w ((kept_sublist _ _).subset (hsub hv)) hw hle
    have hs := h.sorted key
    rw [← drained_append_kept Version.timestamp (st.on key) st.oldestActiveSnapshot] at hs
    have hwk : w ∈ kept Version.timestamp (st.on key) st.oldestActiveSnapshot := by
      rcases mem_drained_or_kept Version.timestamp st.oldestActiveSnapshot hold
        with hd | hk
      · have := (List.pairwise_append.mp hs).2.2 w hd v (hsub hv)
        omega
      · exact hk
    rcases st.on_reclaimCovered protect key with heq | ⟨heq, -⟩
    · rwa [heq]
    · rw [heq] at hv
      cases hv
  · -- a version that is gone was passed by a kept one, or a generation has it
    have hcases : (∃ b ∈ kept Version.timestamp (st.on key) st.oldestActiveSnapshot,
        w.timestamp < b.timestamp ∧ b.timestamp ≤ st.oldestActiveSnapshot) ∨
        w ∈ kept Version.timestamp (st.on key) st.oldestActiveSnapshot ∨
        ∃ g ∈ (st.reclaimCovered protect).2.generations,
          w.timestamp ≤ g.timestamp ∧ g.timestamp ≤ st.oldestActiveSnapshot := by
      by_cases hin : w ∈ st.on key
      · rcases hkept hin with hk | hb
        · exact Or.inr (Or.inl hk)
        · exact Or.inl hb
      · rcases h.lost key w hw hin with ⟨v, hv, hwv, hvf⟩ | ⟨g, hg, hwg, hgf⟩
        · rcases hkept hv with hk | ⟨b, hb, hvb, hbo⟩
          · exact Or.inl ⟨v, hk, hwv, by omega⟩
          · exact Or.inl ⟨b, hb, by omega, hbo⟩
        · obtain ⟨b, hb, hgb, hbo⟩ := hring g hg (by omega)
          exact Or.inr (Or.inr ⟨b, hb, by omega, hbo⟩)
    rcases st.on_reclaimCovered protect key with heq | ⟨-, -, -, v, g, hv, hg, hle⟩
    · rw [heq] at hgone ⊢
      rcases hcases with hb | hk | hg
      · exact Or.inl hb
      · exact absurd hk hgone
      · exact Or.inr hg
    · right
      have hsorted : Sorted Generation.timestamp (st.reclaimCovered protect).2.generations :=
        h.ring.sublist (kept_sublist _ _)
      have hl := latest_isLatest hsorted hg
      rw [hv] at hcases
      rcases hcases with ⟨b, hb, hlt, -⟩ | hk | hg'
      · rw [List.mem_singleton] at hb
        subst hb
        exact ⟨g, hl.mem, by omega, hl.le⟩
      · rw [List.mem_singleton] at hk
        subst hk
        exact ⟨g, hl.mem, hle, hl.le⟩
      · exact hg'
  · exact h.ring.sublist (kept_sublist _ _)
  · exact h.indexes g ((kept_sublist _ _).subset hg)
  · refine h.dirty key w hw fun g hg => ?_
    rcases mem_drained_or_kept Generation.timestamp st.oldestActiveSnapshot hg
      with hd | hk
    · obtain ⟨b, hb, hle, -⟩ := exists_kept_of_mem_drained h.ring hd
      exact Nat.lt_of_le_of_lt hle (hnewer b hb)
    · exact hnewer g hk

/-- Publishing and sweeping leave transactions and timestamps alone. -/
theorem publish_eq (st : State) (g : Generation) (openPage : Option PageId) :
    ∃ versions pageRefs generations dirtyKeys, (st.publish g openPage).2 =
      { st with versions, pageRefs, generations, dirtyKeys } := by
  have hring : ∃ ring, st.publishGeneration g = { st with generations := ring } := by
    unfold publishGeneration
    simp only
    split
    · exact ⟨st.generations, rfl⟩
    · exact ⟨_, rfl⟩
  obtain ⟨ring, hring⟩ := hring
  exact ⟨_, _, _, _, by rw [State.publish, hring]; rfl⟩

theorem oldestActiveSnapshot_publish (st : State) (g : Generation) (timestamp : Nat) :
    ((st.publishGeneration g).retainDirty timestamp).oldestActiveSnapshot =
      st.oldestActiveSnapshot := by
  unfold publishGeneration retainDirty
  simp only
  split <;> rfl

/-- **Publishing a generation** and sweeping. -/
theorem Retains.publish (h : Retains H floor st) {g : Generation}
    (hvis : g.timestamp ≤ st.visibleThrough) (hg : Indexes H g.timestamp g.entries)
    (openPage : Option PageId) :
    Retains H ((st.publishGeneration g).retainDirty g.timestamp).oldestActiveSnapshot
      (st.publish g openPage).2 :=
  (h.generation hvis hg).reclaimCovered openPage

/-! ## capturing a generation -/

/-- A list of mutations with at most one for each key. -/
theorem get_foldl_mutations (update : Key → Option Version) (keys : List Key) (hnodup : keys.Nodup)
    (entries : Std.TreeMap Key Version) (key : Key) :
    ((keys.filterMap fun key => (update key).map (mutationOf key)).foldl Mutation.apply
        entries)[key]? =
      if key ∈ keys then
        ((update key).map fun v => (some v).filter fun v => v.value.isSome).getD entries[key]?
      else entries[key]? := by
  induction keys generalizing entries with
  | nil => simp
  | cons k keys ih =>
    rw [List.nodup_cons] at hnodup
    rw [List.filterMap_cons]
    cases hu : update k with
    | none =>
      rw [Option.map_none]
      simp only
      rw [ih hnodup.2]
      by_cases heq : key = k
      · subst heq
        simp [hnodup.1, hu]
      · simp [heq]
    | some v =>
      rw [Option.map_some]
      simp only [List.foldl_cons]
      rw [ih hnodup.2]
      have happly : ∀ key, (Mutation.apply entries (mutationOf k v))[key]? =
          if k = key then (some v).filter (fun v => v.value.isSome) else entries[key]? := by
        intro key
        unfold mutationOf
        cases hval : v.value with
        | none => simp only [Mutation.apply, get_erase, Option.filter_some, hval]; rfl
        | some value => simp only [Mutation.apply, get_insert, Option.filter_some, hval]; rfl
      rw [happly]
      by_cases heq : key = k
      · subst heq
        simp [hnodup.1, hu]
      · simp [heq, Ne.symm heq]

/-- What the map knows of a key at the watermark, if no generation has to help. -/
theorem Retains.newestAt_visible (h : Retains H floor st) {key : Key} {t : Nat} (ht : floor ≤ t)
    (hnone : visibleVersion (st.on key) t = none → ∀ v, IsNewest H key t v →
      ∀ g ∈ st.generations, g.timestamp < v.timestamp) :
    newestAt H key t = visibleVersion (st.on key) t := by
  cases hv : visibleVersion (st.on key) t with
  | some v => exact (newestAt_eq_some h.unambiguous).mpr (h.isNewest_of_visible hv)
  | none =>
    cases hn : newestAt H key t with
    | none => rfl
    | some v =>
      have hnew := (newestAt_eq_some h.unambiguous).mp hn
      obtain ⟨g, hg, hgv⟩ := h.isNewest_of_lost ht hv hnew
      have hlt := hnone hv v hnew g (latest_isLatest h.ring hg).mem
      exact absurd hgv.le (Nat.not_le.mpr hlt)

/-- The newest generation is the last of the ring. -/
theorem Retains.latestGeneration_max (h : Retains H floor st) {g : Generation}
    (hg : st.latestGeneration = some g) : g ∈ st.generations ∧
      ∀ g' ∈ st.generations, g'.timestamp ≤ g.timestamp := by
  have hmem := List.mem_of_getLast? hg
  refine ⟨hmem, fun g' hg' => ?_⟩
  obtain ⟨init, hsplit⟩ := List.getLast?_eq_some_iff.mp hg
  have hs := h.ring
  rw [hsplit] at hg' hs
  rcases List.mem_append.mp hg' with hin | hin
  · exact (List.pairwise_append.mp hs).2.2 g' hin g (by simp)
  · rw [List.mem_singleton.mp hin]

/-- **What a rebuild captures** is the index of the history at the watermark. -/
theorem Retains.capture (h : Retains H floor st) {build : Build} (hb : st.capture = some build) :
    build.timestamp = st.visibleThrough ∧ Indexes H build.timestamp build.entries := by
  unfold State.capture at hb
  cases hg : st.latestGeneration with
  | none =>
    rw [hg] at hb
    cases hb
    refine ⟨rfl, fun key => ?_⟩
    have hempty : st.generations = [] := List.getLast?_eq_none_iff.mp hg
    rw [h.newestAt_visible h.floor_le fun _ v _ g hg => by rw [hempty] at hg; cases hg]
    rw [currentIndexEntries, Std.TreeMap.getElem?_filterMap', State.on,
      Std.TreeMap.getD_eq_getD_getElem?]
    cases st.versions[key]? with
    | none => rfl
    | some versions => rfl
  | some base =>
    rw [hg] at hb
    simp only at hb
    split at hb
    · cases hb
    cases hb
    refine ⟨rfl, fun key => ?_⟩
    obtain ⟨hbase, hmax⟩ := h.latestGeneration_max hg
    let update : Key → Option Version := fun key =>
      (visibleVersion (st.on key) st.visibleThrough).filter fun v =>
        decide (base.timestamp < v.timestamp)
    have hmut : st.mutations st.visibleThrough base =
        st.dirtyKeys.toList.filterMap fun key => (update key).map (mutationOf key) := by
      refine List.filterMap_congr fun key _ => ?_
      show _ = (Option.filter _ (visibleVersion (st.on key) st.visibleThrough)).map _
      cases visibleVersion (st.on key) st.visibleThrough with
      | none => rfl
      | some v =>
        rw [Option.bind_some, Option.filter_some]
        by_cases hle : v.timestamp ≤ base.timestamp
        · rw [if_pos hle, if_neg (by simpa using hle)]
          rfl
        · rw [if_neg hle, if_pos (by simpa using hle)]
          rfl
    rw [hmut, get_foldl_mutations update _ (nodup_toList_set _)]
    -- a key that is not mutated has no version behind the base
    have hsame : (key ∉ st.dirtyKeys.toList ∨ update key = none) →
        newestAt H key base.timestamp = newestAt H key st.visibleThrough := by
      intro hskip
      have hnone : ∀ w, (key, w) ∈ H → w.timestamp ≤ st.visibleThrough →
          w.timestamp ≤ base.timestamp := by
        intro w hw hle
        by_contra hlt
        obtain ⟨v, hv⟩ : ∃ v, newestAt H key st.visibleThrough = some v := by
          cases hn : newestAt H key st.visibleThrough with
          | none => exact absurd hle (Nat.not_le.mpr (newestAt_eq_none.mp hn w hw))
          | some v => exact ⟨v, rfl⟩
        have hnew := (newestAt_eq_some h.unambiguous).mp hv
        have hbehind : base.timestamp < v.timestamp := by
          have := hnew.max w hw hle
          omega
        have hgens : ∀ g ∈ st.generations, g.timestamp < v.timestamp := fun g hg =>
          Nat.lt_of_le_of_lt (hmax g hg) hbehind
        have hvis := h.newestAt_visible h.floor_le fun _ u hu g hg => by
          rw [← hnew.unique (h.unambiguous.distinct key) hu]
          exact hgens g hg
        rcases hskip with hclean | hupdate
        · exact hclean (Std.TreeSet.mem_toList.mpr (h.dirty key v hnew.mem hgens))
        · rw [hv] at hvis
          simp only [update, ← hvis, Option.filter_some] at hupdate
          simp [hbehind] at hupdate
      refine Option.ext fun v => ?_
      rw [newestAt_eq_some h.unambiguous, newestAt_eq_some h.unambiguous]
      have hle := (h.indexes base hbase).1
      exact ⟨fun hv => ⟨hv.mem, Nat.le_trans hv.le hle, fun w hw hwle =>
          hv.max w hw (hnone w hw hwle)⟩,
        fun hv => ⟨hv.mem, hnone v hv.mem hv.le, fun w hw hwle =>
          hv.max w hw (Nat.le_trans hwle hle)⟩⟩
    have hidx := (h.indexes base hbase).2 key
    split
    · cases hu : update key with
      | none =>
        rw [Option.map_none, Option.getD_none, hidx, hsame (Or.inr hu)]
      | some v =>
        rw [Option.map_some, Option.getD_some]
        obtain ⟨hv, -⟩ := Option.filter_eq_some_iff.mp hu
        rw [(newestAt_eq_some h.unambiguous).mpr (h.isNewest_of_visible hv)]
    · next hclean => rw [hidx, hsame (Or.inl hclean)]

end State

end QuantaDb.Mvcc
