import QuantaDb.Mvcc.Reclaim

/-!
# QuantaDb.Mvcc.Commits

The life of a commit: it takes a timestamp and intents on its keys, and when it
finishes the watermark moves past every timestamp that is done with.

`Orderly` is about timestamps, `Owned` about the transactions behind the intents.
Each says what its few steps preserve; all other steps leave the fields it
mentions alone.
-/

namespace QuantaDb.Mvcc

open TreeMaps

namespace State

/-! ## the watermark -/

/-- The loop behind `finish_prepared` takes the completed timestamps that follow
the watermark, all of them if it has a turn for each. -/
theorem advanceWatermark_eq (turns : Nat) (st : State) : ∃ completed visible,
    advanceWatermark turns st =
      { st with completedTimestamps := completed, visibleThrough := visible } ∧
    st.visibleThrough ≤ visible ∧
    (∀ x, x ∈ completed ↔ x ∈ st.completedTimestamps ∧ ¬(st.visibleThrough < x ∧ x ≤ visible)) ∧
    (∀ x, st.visibleThrough < x → x ≤ visible → x ∈ st.completedTimestamps) ∧
    (st.completedTimestamps.size ≤ turns → visible + 1 < 2 ^ 64 → visible + 1 ∉ completed) := by
  induction turns generalizing st with
  | zero =>
    refine ⟨st.completedTimestamps, st.visibleThrough, rfl, Nat.le_refl _, fun x => ?_,
      fun x hlt hle => by omega, fun hsize _ hmem => ?_⟩
    · refine ⟨fun h => ⟨h, by omega⟩, fun h => h.1⟩
    · have hempty : st.completedTimestamps.isEmpty = true := by
        rw [Std.TreeSet.isEmpty_eq_size_eq_zero]
        simpa using hsize
      exact Std.TreeSet.isEmpty_iff_forall_not_mem.mp hempty _ hmem
  | succ turns ih =>
    rw [advanceWatermark]
    split
    · next hnext =>
      obtain ⟨completed, visible, heq, hle, hmem, htaken, hdone⟩ := ih { st with
        completedTimestamps := st.completedTimestamps.erase (st.visibleThrough + 1)
        visibleThrough := st.visibleThrough + 1 }
      simp only [mem_erase_set] at hle hmem htaken hdone
      refine ⟨completed, visible, heq, by omega, fun x => ?_, fun x hlt hle' => ?_,
        fun hsize => hdone ?_⟩
      · rw [hmem]
        constructor
        · rintro ⟨⟨hne, hx⟩, hout⟩
          exact ⟨hx, fun hin => hout ⟨by omega, hin.2⟩⟩
        · rintro ⟨hx, hout⟩
          exact ⟨⟨fun heq => hout ⟨by omega, by omega⟩, hx⟩, fun hin => hout ⟨by omega, hin.2⟩⟩
      · by_cases heq : x = st.visibleThrough + 1
        · rw [heq]
          exact hnext.2
        · exact (htaken x (by omega) hle').2
      · rw [Std.TreeSet.size_erase, if_pos (Std.TreeSet.contains_iff_mem.mpr hnext.2)]
        omega
    · next hnext =>
      refine ⟨st.completedTimestamps, st.visibleThrough, rfl, Nat.le_refl _, fun x => ?_,
        fun x hlt hle => by omega, fun _ hlt hmem => hnext ⟨hlt, hmem⟩⟩
      exact ⟨fun h => ⟨h, by omega⟩, fun h => h.1⟩

/-- A timestamp is done with; where the watermark can move, it does. -/
theorem complete_eq (st : State) (timestamp : Nat) : ∃ completed visible,
    st.complete timestamp =
      { st with completedTimestamps := completed, visibleThrough := visible } ∧
    st.visibleThrough ≤ visible ∧
    (∀ x, x ∈ completed ↔ (timestamp = x ∨ x ∈ st.completedTimestamps) ∧
      ¬(st.visibleThrough < x ∧ x ≤ visible)) ∧
    (∀ x, st.visibleThrough < x → x ≤ visible → timestamp = x ∨ x ∈ st.completedTimestamps) ∧
    (visible + 1 < 2 ^ 64 → visible + 1 ∉ completed) := by
  obtain ⟨completed, visible, heq, hle, hmem, htaken, hdone⟩ := advanceWatermark_eq _
    { st with completedTimestamps := st.completedTimestamps.insert timestamp }
  simp only [mem_insert_set] at hmem htaken
  exact ⟨completed, visible, heq, hle, hmem, htaken, hdone (Nat.le_refl _)⟩

/-! ## preparing -/

/-- What `prepare_commit` has checked when it returns a timestamp. -/
structure Prepares (st : State) (id snapshot : Nat) (keys : List Key) (scanned : List Bytes) :
    Prop where
  keys : ∀ key ∈ keys, st.hasForeignIntent id key = false ∧
    hasNewer snapshot (st.on key) = false
  ranges : ∀ start ∈ scanned, (∀ entry ∈ versionRange st.versions start,
      hasNewer snapshot entry.2 = false) ∧
    ∀ (key : Key) owner, st.intents[key]? = some owner → start <+: key → owner = id
  room : st.nextCommitTimestamp + 1 < 2 ^ 64

theorem prepareCommit_eq_ok {st st' : State} {id snapshot timestamp : Nat} {keys : List Key}
    {scanned : List Bytes}
    (h : st.prepareCommit id snapshot keys scanned = .ok (timestamp, st')) :
    st.Prepares id snapshot keys scanned ∧ timestamp = st.nextCommitTimestamp ∧
      st' = { st with
        nextCommitTimestamp := st.nextCommitTimestamp + 1
        intents := keys.foldl (fun intents key => intents.insert key id) st.intents } := by
  unfold prepareCommit at h
  split at h
  · cases h
  · next hw =>
    split at h
    · cases h
    · next hr =>
      split at h
      · cases h
      · next hroom =>
        cases h
        refine ⟨⟨fun key hk => ?_, fun start hs => ⟨fun entry he => ?_, ?_⟩, by omega⟩,
          rfl, rfl⟩
        · have := List.find?_eq_none.mp hw key hk
          simpa using this
        · have hnot := List.find?_eq_none.mp hr start hs
          rw [Bool.or_eq_true, not_or] at hnot
          by_contra hnew
          exact hnot.1 (List.any_eq_true.mpr ⟨entry, he, by simpa using hnew⟩)
        · intro key owner hi hstart
          have hnot := List.find?_eq_none.mp hr start hs
          rw [Bool.or_eq_true, not_or] at hnot
          by_contra hne
          refine hnot.2 (List.any_eq_true.mpr ⟨(key, owner),
            Std.TreeMap.mem_toList_iff_getElem?_eq_some.mpr hi, ?_⟩)
          rw [Bool.and_eq_true, List.isPrefixOf_iff_prefix]
          exact ⟨by simpa using hne, hstart⟩

/-! ## finishing -/

theorem get_dropIntents (st : State) (id : Nat) (keys : List Key) (key : Key) :
    (st.dropIntents id keys).intents[key]? =
      if key ∈ keys ∧ st.intents[key]? = some id then none else st.intents[key]? := by
  unfold dropIntents
  simp only
  generalize st.intents = intents
  induction keys generalizing intents with
  | nil => simp
  | cons k keys ih =>
    rw [List.foldl_cons, ih]
    by_cases heq : k = key
    · subst heq
      by_cases hown : intents[k]? = some id
      · simp [hown]
      · simp [hown]
    · have hkeep : (if intents[k]? = some id then intents.erase k else intents)[key]? =
          intents[key]? := by
        split
        · rw [get_erase, if_neg heq]
        · rfl
      rw [hkeep]
      simp [Ne.symm heq]

/-- A commit gives up its intents; with the pages of its writes, its versions
enter the map. -/
def settle (st : State) (id timestamp : Nat) (writes : List (Key × Option Bytes)) :
    Option (List PageId) → State
  | none => st.dropIntents id (writes.map Prod.fst)
  | some pageIds =>
    (writes.zip pageIds).foldl (publishOne timestamp) (st.dropIntents id (writes.map Prod.fst))

theorem map_fst_zip {writes : List (Key × Option Bytes)} {pageIds : List PageId}
    (hlen : pageIds.length = writes.length) :
    ((writes.zip pageIds).map fun write => write.1.1) = writes.map Prod.fst := by
  have hfst : (writes.zip pageIds).map Prod.fst = writes := List.map_fst_zip (by omega)
  conv_rhs => rw [← hfst, List.map_map]
  rfl

/-- A commit whose timestamp is newer than the versions of its keys finishes
without an error. -/
theorem finishPrepared_eq {st : State} {id timestamp : Nat} {writes : List (Key × Option Bytes)}
    {pageIds : Option (List PageId)}
    (hlen : (pageIds.all fun pageIds => pageIds.length == writes.length) = true)
    (hkeys : (writes.map Prod.fst).Nodup)
    (hnew : ∀ write ∈ writes, ∀ v ∈ st.on write.1, v.timestamp < timestamp) :
    st.finishPrepared id timestamp writes pageIds =
      (none, (st.settle id timestamp writes pageIds).complete timestamp) := by
  cases pageIds with
  | none => rfl
  | some pageIds =>
    have hpub := publishVersions_eq timestamp 0 (writes.zip pageIds)
      (st.dropIntents id (writes.map Prod.fst))
      (by rw [map_fst_zip (by simpa using hlen)]; exact hkeys)
      fun write hw v hv => hnew write.1 (List.of_mem_zip hw).1 v hv
    simp only [finishPrepared, hpub, settle]

/-- Settling a commit leaves transactions, timestamps and generations alone. -/
theorem settle_eq (st : State) (id timestamp : Nat) (writes : List (Key × Option Bytes))
    (pageIds : Option (List PageId)) : ∃ versions pageRefs dirtyKeys,
      st.settle id timestamp writes pageIds =
        { st.dropIntents id (writes.map Prod.fst) with versions, pageRefs, dirtyKeys } := by
  cases pageIds with
  | none => exact ⟨_, _, _, rfl⟩
  | some pageIds => exact foldl_publishOne timestamp _ _

end State

/-! ## timestamps -/

/-- The first timestamp given out since the database was opened. -/
def Core.opened (c : Core) : Nat := State.maximumTimestamp c.recovered + 1

/-- Timestamps are given out in order; one that is given out is with a commit
under way or with one that is finished, and the watermark is as far as the
finished ones reach without a gap. -/
structure Orderly (c : Core) : Prop where
  room : c.db.nextCommitTimestamp < 2 ^ 64
  opened : c.opened ≤ c.db.visibleThrough + 1
  visible : c.db.visibleThrough < c.db.nextCommitTimestamp
  completed : ∀ t, t ∈ c.db.completedTimestamps →
    c.db.visibleThrough + 1 < t ∧ t < c.db.nextCommitTimestamp ∧ c.prepared[t]? = none
  allocated : ∀ t, c.db.visibleThrough < t → t < c.db.nextCommitTimestamp →
    t ∈ c.db.completedTimestamps ∨ ∃ p, c.prepared[t]? = some p
  prepared : ∀ (t : Nat) p, c.prepared[t]? = some p →
    p.timestamp = t ∧ c.db.visibleThrough < t ∧ t < c.db.nextCommitTimestamp
  finished : ∀ f ∈ c.finished, c.opened ≤ f.commit.timestamp ∧
    (f.commit.timestamp ≤ c.db.visibleThrough ∨ f.commit.timestamp ∈ c.db.completedTimestamps)
  accounted : ∀ t, c.opened ≤ t →
    t ≤ c.db.visibleThrough ∨ t ∈ c.db.completedTimestamps →
    ∃ f ∈ c.finished, f.commit.timestamp = t
  distinct : c.finished.Pairwise fun f f' => f.commit.timestamp ≠ f'.commit.timestamp

namespace Orderly

variable {c c' : Core}

/-- Steps that neither prepare nor finish a commit. -/
theorem congr (h : Orderly c) (hrec : c'.recovered = c.recovered)
    (hnext : c'.db.nextCommitTimestamp = c.db.nextCommitTimestamp)
    (hvis : c'.db.visibleThrough = c.db.visibleThrough)
    (hdone : c'.db.completedTimestamps = c.db.completedTimestamps)
    (hprep : c'.prepared = c.prepared) (hfin : c'.finished = c.finished) : Orderly c' := by
  have hopened : c'.opened = c.opened := by rw [Core.opened, hrec, Core.opened]
  refine ⟨hnext ▸ h.room, ?_, ?_, ?_, ?_, ?_, ?_, ?_, hfin ▸ h.distinct⟩
  · rw [hopened, hvis]; exact h.opened
  · rw [hnext, hvis]; exact h.visible
  · rw [hdone, hnext, hvis, hprep]; exact h.completed
  · rw [hdone, hnext, hvis, hprep]; exact h.allocated
  · rw [hnext, hvis, hprep]; exact h.prepared
  · rw [hfin, hopened, hvis, hdone]; exact h.finished
  · rw [hfin, hopened, hvis, hdone]; exact h.accounted

/-- A commit takes the next timestamp. -/
theorem prepare (h : Orderly c) {p : Prepared} (hp : p.timestamp = c.db.nextCommitTimestamp)
    (hroom : c.db.nextCommitTimestamp + 1 < 2 ^ 64) (hrec : c'.recovered = c.recovered)
    (hnext : c'.db.nextCommitTimestamp = c.db.nextCommitTimestamp + 1)
    (hvis : c'.db.visibleThrough = c.db.visibleThrough)
    (hdone : c'.db.completedTimestamps = c.db.completedTimestamps)
    (hprep : c'.prepared = c.prepared.insert c.db.nextCommitTimestamp p)
    (hfin : c'.finished = c.finished) : Orderly c' := by
  have hopened : c'.opened = c.opened := by rw [Core.opened, hrec, Core.opened]
  have hv := h.visible
  refine ⟨by rw [hnext]; exact hroom, ?_, ?_, fun t ht => ?_, fun t hlt hle => ?_, fun t q hq => ?_,
    ?_, ?_, hfin ▸ h.distinct⟩
  · rw [hopened, hvis]; exact h.opened
  · rw [hnext, hvis]; omega
  · rw [hdone] at ht
    obtain ⟨h1, h2, h3⟩ := h.completed t ht
    refine ⟨by omega, by omega, ?_⟩
    rw [hprep, get_insert, if_neg (by omega)]
    exact h3
  · rw [hprep, hdone, get_insert]
    by_cases heq : c.db.nextCommitTimestamp = t
    · exact Or.inr ⟨p, if_pos heq⟩
    · rw [if_neg heq]
      exact h.allocated t (by omega) (by omega)
  · rw [hprep, get_insert] at hq
    split at hq
    · next heq =>
      cases hq
      exact ⟨hp.trans heq, by omega, by omega⟩
    · obtain ⟨h1, h2, h3⟩ := h.prepared t q hq
      exact ⟨h1, by omega, by omega⟩
  · rw [hfin, hopened, hvis, hdone]; exact h.finished
  · rw [hfin, hopened, hvis, hdone]; exact h.accounted

/-- A commit finishes, whether it is published or not. -/
theorem finish (h : Orderly c) {t : Nat} {p : Prepared} (hp : c.prepared[t]? = some p)
    {st : State} (hst : st.visibleThrough = c.db.visibleThrough)
    (hst' : st.completedTimestamps = c.db.completedTimestamps)
    (hst'' : st.nextCommitTimestamp = c.db.nextCommitTimestamp)
    (hdb : c'.db = st.complete t) (hrec : c'.recovered = c.recovered)
    (hprep : c'.prepared = c.prepared.erase t) {f : Finished} (hf : f.commit = p)
    (hfin : c'.finished = c.finished ++ [f]) : Orderly c' := by
  obtain ⟨completed, visible, heq, hle, hmem, htaken, hdone⟩ := st.complete_eq t
  have hopened : c'.opened = c.opened := by rw [Core.opened, hrec, Core.opened]
  obtain ⟨hpt, hpv, hpn⟩ := h.prepared t p hp
  have hft : f.commit.timestamp = t := by rw [hf, hpt]
  rw [heq] at hdb
  have hnext : c'.db.nextCommitTimestamp = c.db.nextCommitTimestamp := by rw [hdb, ← hst'']
  have hvis : c'.db.visibleThrough = visible := by rw [hdb]
  have hcomp : ∀ x, x ∈ c'.db.completedTimestamps ↔ (t = x ∨ x ∈ c.db.completedTimestamps) ∧
      ¬(c.db.visibleThrough < x ∧ x ≤ visible) := fun x => by
    rw [hdb, ← hst, ← hst']
    exact hmem x
  rw [hst, hst'] at htaken
  rw [hst] at hle
  have hbound : visible < c.db.nextCommitTimestamp := by
    by_contra hge
    have hv := h.visible
    rcases htaken c.db.nextCommitTimestamp hv (by omega) with heq | hin
    · omega
    · have := (h.completed _ hin).2.1
      omega
  have hroom := h.room
  refine ⟨by rw [hnext]; exact hroom, ?_, by rw [hnext, hvis]; exact hbound, fun x hx => ?_,
    fun x hlt hlt' => ?_, fun x q hq => ?_, fun g hg => ?_, fun x hx hor => ?_, ?_⟩
  · have := h.opened
    rw [hopened, hvis]
    omega
  · obtain ⟨hor, hout⟩ := (hcomp x).mp hx
    have hxlt : c.db.visibleThrough < x ∧ x < c.db.nextCommitTimestamp := by
      rcases hor with rfl | hin
      · exact ⟨hpv, hpn⟩
      · have := h.completed x hin
        exact ⟨by omega, this.2.1⟩
    have hne : x ≠ visible + 1 := fun heq => by
      have := hdone (by omega)
      rw [hdb] at hx
      exact this (heq ▸ hx)
    refine ⟨by rw [hvis]; omega, by rw [hnext]; exact hxlt.2, ?_⟩
    rw [hprep, get_erase]
    split
    · rfl
    · next hne =>
      exact (h.completed x (hor.resolve_left hne)).2.2
  · rw [hvis] at hlt
    rw [hnext] at hlt'
    rw [hcomp, hprep, get_erase]
    by_cases heq : t = x
    · exact Or.inl ⟨Or.inl heq, fun hin => by omega⟩
    · rw [if_neg heq]
      rcases h.allocated x (by omega) hlt' with hin | hq
      · exact Or.inl ⟨Or.inr hin, fun hin => by omega⟩
      · exact Or.inr hq
  · rw [hprep, get_erase] at hq
    split at hq
    · cases hq
    · next hne =>
      obtain ⟨h1, h2, h3⟩ := h.prepared x q hq
      refine ⟨h1, ?_, by rw [hnext]; exact h3⟩
      rw [hvis]
      by_contra hge
      rcases htaken x h2 (by omega) with heq | hin
      · exact hne heq
      · rw [(h.completed x hin).2.2] at hq
        cases hq
  · rw [hopened, hvis, hcomp]
    rw [hfin] at hg
    rcases List.mem_append.mp hg with hg | hg
    · obtain ⟨h1, h2⟩ := h.finished g hg
      refine ⟨h1, ?_⟩
      rcases h2 with h2 | h2
      · exact Or.inl (by omega)
      · by_cases hle' : g.commit.timestamp ≤ visible
        · exact Or.inl hle'
        · exact Or.inr ⟨Or.inr h2, fun hin => by omega⟩
    · rw [List.mem_singleton] at hg
      subst hg
      have := h.opened
      refine ⟨by omega, ?_⟩
      by_cases hle' : g.commit.timestamp ≤ visible
      · exact Or.inl hle'
      · exact Or.inr ⟨Or.inl hft.symm, fun hin => by omega⟩
  · rw [hopened] at hx
    rw [hvis, hcomp] at hor
    have hcase : t = x ∨ x ≤ c.db.visibleThrough ∨ x ∈ c.db.completedTimestamps := by
      rcases hor with hor | ⟨hor, -⟩
      · by_cases hold : x ≤ c.db.visibleThrough
        · exact Or.inr (Or.inl hold)
        · exact (htaken x (by omega) hor).imp_right Or.inr
      · exact hor.imp_right Or.inr
    rw [hfin]
    rcases hcase with rfl | hold
    · exact ⟨f, by simp, hft⟩
    · obtain ⟨g, hg, hgt⟩ := h.accounted x hx hold
      exact ⟨g, by simp [hg], hgt⟩
  · rw [hfin]
    refine List.pairwise_append.mpr ⟨h.distinct, List.pairwise_singleton _ _, fun g hg g' hg' => ?_⟩
    rw [List.mem_singleton] at hg'
    rw [hg', hft]
    intro heq
    rcases (h.finished g hg).2 with h2 | h2
    · omega
    · rw [heq] at h2
      rw [(h.completed t h2).2.2] at hp
      cases hp

end Orderly

/-! ## transactions -/

/-- The keys a commit writes. -/
def Prepared.keys (p : Prepared) : List Key := p.writes.map Prod.fst

/-- Every intent belongs to a commit under way, which has one on each of its keys;
its transaction is active, as are those that clients hold. -/
structure Owned (c : Core) : Prop where
  ids : ∀ (id : Nat) s, c.db.active[id]? = some s → id < c.db.nextTransactionId
  transactions : ∀ (id : Nat) t, c.transactions[id]? = some t →
    t.id = id ∧ c.db.active[id]? = some t.snapshot ∧ id ∉ c.closing ∧
      ∀ (x : Nat) p, c.prepared[x]? = some p → p.transactionId ≠ id
  prepared : ∀ (x : Nat) p, c.prepared[x]? = some p →
    c.db.active[p.transactionId]? = some p.snapshot ∧ p.keys.Nodup ∧ p.transactionId ∉ c.closing ∧
      ∀ key ∈ p.keys, c.db.intents[key]? = some p.transactionId
  owner : ∀ (x y : Nat) p q, c.prepared[x]? = some p → c.prepared[y]? = some q →
    p.transactionId = q.transactionId → x = y
  intents : ∀ (key : Key) id, c.db.intents[key]? = some id →
    ∃ (x : Nat) (p : Prepared), c.prepared[x]? = some p ∧ p.transactionId = id ∧ key ∈ p.keys
  closing : ∀ id, id ∈ c.closing → id < c.db.nextTransactionId
  past : ∀ f ∈ c.finished, f.commit.transactionId < c.db.nextTransactionId ∧
    c.transactions[f.commit.transactionId]? = none ∧
    ∀ (x : Nat) p, c.prepared[x]? = some p → p.transactionId ≠ f.commit.transactionId

namespace Owned

variable {c c' : Core}

/-- Steps that begin, prepare and end nothing. -/
theorem congr (h : Owned c) (hnext : c'.db.nextTransactionId = c.db.nextTransactionId)
    (hactive : c'.db.active = c.db.active) (hintents : c'.db.intents = c.db.intents)
    (htx : c'.transactions = c.transactions) (hprep : c'.prepared = c.prepared)
    (hclosing : c'.closing = c.closing) (hfin : c'.finished = c.finished) : Owned c' := by
  refine ⟨?_, ?_, ?_, ?_, ?_, ?_, ?_⟩
  · rw [hactive, hnext]; exact h.ids
  · rw [hactive, htx, hprep, hclosing]; exact h.transactions
  · rw [hactive, hprep, hclosing, hintents]; exact h.prepared
  · rw [hprep]; exact h.owner
  · rw [hprep, hintents]; exact h.intents
  · rw [hclosing, hnext]; exact h.closing
  · rw [hfin, hnext, htx, hprep]; exact h.past

/-- A transaction begins under a number that was never used. -/
theorem begin (h : Owned c) {t : Transaction} {snapshot : Nat}
    (ht : t.id = c.db.nextTransactionId) (hts : t.snapshot = snapshot)
    (hnext : c'.db.nextTransactionId = c.db.nextTransactionId + 1)
    (hactive : c'.db.active = c.db.active.insert c.db.nextTransactionId snapshot)
    (hintents : c'.db.intents = c.db.intents)
    (htx : c'.transactions = c.transactions.insert c.db.nextTransactionId t)
    (hprep : c'.prepared = c.prepared) (hclosing : c'.closing = c.closing)
    (hfin : c'.finished = c.finished) : Owned c' := by
  have hfresh : ∀ (x : Nat) p, c.prepared[x]? = some p →
      p.transactionId < c.db.nextTransactionId := fun x p hp => h.ids _ _ (h.prepared x p hp).1
  refine ⟨fun id s hs => ?_, fun id u hu => ?_, fun x p hp => ?_, ?_, ?_, fun id hid => ?_,
    fun f hf => ?_⟩
  · rw [hactive, get_insert] at hs
    split at hs
    · omega
    · have := h.ids id s hs
      omega
  · rw [htx, get_insert] at hu
    rw [hactive, hclosing, hprep, get_insert]
    split at hu
    · next heq =>
      cases hu
      refine ⟨ht.trans heq, by rw [if_pos heq, hts], fun hin => ?_, fun x p hp => ?_⟩
      · have := h.closing id hin
        omega
      · have := hfresh x p hp
        omega
    · next hne =>
      rw [if_neg hne]
      exact h.transactions id u hu
  · rw [hprep] at hp
    have := hfresh x p hp
    rw [hactive, hclosing, hintents, get_insert, if_neg (by omega)]
    exact h.prepared x p hp
  · rw [hprep]; exact h.owner
  · rw [hprep, hintents]; exact h.intents
  · rw [hclosing] at hid
    have := h.closing id hid
    omega
  · rw [hfin] at hf
    obtain ⟨h1, h2, h3⟩ := h.past f hf
    refine ⟨by omega, ?_, by rw [hprep]; exact h3⟩
    rw [htx, get_insert, if_neg (by omega)]
    exact h2

/-- A client changes what it holds of its transaction. -/
theorem update (h : Owned c) {id : Nat} {t t' : Transaction} (ht : c.transactions[id]? = some t)
    (hid : t'.id = t.id) (hsnap : t'.snapshot = t.snapshot) (hdb : c'.db = c.db)
    (htx : c'.transactions = c.transactions.insert id t') (hprep : c'.prepared = c.prepared)
    (hclosing : c'.closing = c.closing) (hfin : c'.finished = c.finished) : Owned c' := by
  refine ⟨hdb ▸ h.ids, fun id' u hu => ?_, ?_, hprep ▸ h.owner, ?_, ?_, fun f hf => ?_⟩
  · rw [htx, get_insert] at hu
    rw [hdb, hclosing, hprep]
    split at hu
    · next heq =>
      cases hu
      subst heq
      rw [hid, hsnap]
      exact h.transactions id t ht
    · exact h.transactions id' u hu
  · rw [hdb, hprep, hclosing]; exact h.prepared
  · rw [hdb, hprep]; exact h.intents
  · rw [hdb, hclosing]; exact h.closing
  · rw [hfin] at hf
    obtain ⟨h1, h2, h3⟩ := h.past f hf
    refine ⟨by rw [hdb]; exact h1, ?_, by rw [hprep]; exact h3⟩
    rw [htx, get_insert]
    split
    · next heq =>
      rw [← heq, ht] at h2
      cases h2
    · exact h2

/-- A transaction becomes a commit, with intents on the keys it wrote; nobody else
has one there. -/
theorem prepare (h : Owned c) {id x : Nat} {t : Transaction} {p : Prepared}
    (ht : c.transactions[id]? = some t) (hx : ∀ p, c.prepared[x]? ≠ some p)
    (hpid : p.transactionId = id) (hpsnap : p.snapshot = t.snapshot) (hkeys : p.keys.Nodup)
    (hfree : ∀ key ∈ p.keys, c.db.hasForeignIntent id key = false)
    (hnext : c'.db.nextTransactionId = c.db.nextTransactionId)
    (hactive : c'.db.active = c.db.active)
    (hintents : ∀ key : Key, c'.db.intents[key]? =
      if key ∈ p.keys then some id else c.db.intents[key]?)
    (htx : c'.transactions = c.transactions.erase id) (hprep : c'.prepared = c.prepared.insert x p)
    (hclosing : c'.closing = c.closing) (hfin : c'.finished = c.finished) : Owned c' := by
  obtain ⟨htid, htact, htclose, hnot⟩ := h.transactions id t ht
  have hfree' : ∀ key ∈ p.keys, c.db.intents[key]? = none := by
    intro key hk
    cases hi : c.db.intents[key]? with
    | none => rfl
    | some owner =>
      obtain ⟨y, q, hq, hqo, -⟩ := h.intents key owner hi
      have := hfree key hk
      simp only [State.hasForeignIntent, hi, Option.any_some, bne_eq_false_iff_eq] at this
      exact absurd (hqo.trans this) (hnot y q hq)
  have hcases : ∀ (y : Nat) q, c'.prepared[y]? = some q →
      (y = x ∧ q = p) ∨ (y ≠ x ∧ c.prepared[y]? = some q) := by
    intro y q hq
    rw [hprep, get_insert] at hq
    split at hq
    · next heq =>
      cases hq
      exact Or.inl ⟨heq.symm, rfl⟩
    · next hne => exact Or.inr ⟨Ne.symm hne, hq⟩
  refine ⟨?_, fun id' u hu => ?_, fun y q hq => ?_, fun y z q r hq hr heq => ?_,
    fun key owner hi => ?_, ?_, fun f hf => ?_⟩
  · rw [hactive, hnext]; exact h.ids
  · rw [htx, get_erase] at hu
    split at hu
    · cases hu
    · next hne =>
      obtain ⟨h1, h2, h3, h4⟩ := h.transactions id' u hu
      refine ⟨h1, by rw [hactive]; exact h2, by rw [hclosing]; exact h3, fun y q hq => ?_⟩
      rcases hcases y q hq with ⟨-, rfl⟩ | ⟨-, hq⟩
      · rw [hpid]
        exact hne
      · exact h4 y q hq
  · rw [hactive, hclosing]
    rcases hcases y q hq with ⟨-, rfl⟩ | ⟨-, hq⟩
    · refine ⟨by rw [hpid, hpsnap]; exact htact, hkeys, by rw [hpid]; exact htclose,
        fun key hk => ?_⟩
      rw [hintents, if_pos hk, hpid]
    · obtain ⟨h1, h2, h3, h4⟩ := h.prepared y q hq
      refine ⟨h1, h2, h3, fun key hk => ?_⟩
      rw [hintents]
      split
      · next hin =>
        have := h4 key hk
        rw [hfree' key hin] at this
        cases this
      · exact h4 key hk
  · rcases hcases y q hq with ⟨rfl, rfl⟩ | ⟨-, hq⟩
    · rcases hcases z r hr with ⟨rfl, -⟩ | ⟨-, hr⟩
      · rfl
      · exact absurd (heq.symm.trans hpid) (hnot z r hr)
    · rcases hcases z r hr with ⟨-, rfl⟩ | ⟨-, hr⟩
      · exact absurd (heq.trans hpid) (hnot y q hq)
      · exact h.owner y z q r hq hr heq
  · rw [hintents] at hi
    split at hi
    · next hin =>
      cases hi
      exact ⟨x, p, by rw [hprep, get_insert, if_pos rfl], hpid, hin⟩
    · obtain ⟨y, q, hq, hqo, hk⟩ := h.intents key owner hi
      have hne : x ≠ y := fun heq => hx q (heq ▸ hq)
      exact ⟨y, q, by rw [hprep, get_insert, if_neg hne]; exact hq, hqo, hk⟩
  · rw [hclosing, hnext]; exact h.closing
  · rw [hfin] at hf
    obtain ⟨h1, h2, h3⟩ := h.past f hf
    refine ⟨by rw [hnext]; exact h1, ?_, fun y q hq => ?_⟩
    · rw [htx, get_erase]
      split
      · rfl
      · exact h2
    · rcases hcases y q hq with ⟨-, rfl⟩ | ⟨-, hq⟩
      · rw [hpid]
        intro heq
        rw [← heq, ht] at h2
        cases h2
      · exact h3 y q hq

/-- A commit gives up its intents. -/
theorem finish (h : Owned c) {x : Nat} {p : Prepared} (hp : c.prepared[x]? = some p)
    (hnext : c'.db.nextTransactionId = c.db.nextTransactionId)
    (hactive : c'.db.active = c.db.active)
    (hintents : ∀ key : Key, c'.db.intents[key]? =
      if key ∈ p.keys ∧ c.db.intents[key]? = some p.transactionId then none
      else c.db.intents[key]?)
    (htx : c'.transactions = c.transactions) (hprep : c'.prepared = c.prepared.erase x)
    (hclosing : c'.closing = c.closing.insert p.transactionId) {f : Finished} (hf : f.commit = p)
    (hfin : c'.finished = c.finished ++ [f]) : Owned c' := by
  have hcases : ∀ (y : Nat) q, c'.prepared[y]? = some q → y ≠ x ∧ c.prepared[y]? = some q := by
    intro y q hq
    rw [hprep, get_erase] at hq
    split at hq
    · cases hq
    · next hne => exact ⟨Ne.symm hne, hq⟩
  have hother : ∀ (y : Nat) q, y ≠ x → c.prepared[y]? = some q →
      q.transactionId ≠ p.transactionId := fun y q hne hq heq => hne (h.owner y x q p hq hp heq)
  refine ⟨?_, fun id t ht => ?_, fun y q hq => ?_, fun y z q r hq hr => ?_, fun key owner hi => ?_,
    fun id hid => ?_, fun g hg => ?_⟩
  · rw [hactive, hnext]; exact h.ids
  · rw [htx] at ht
    obtain ⟨h1, h2, h3, h4⟩ := h.transactions id t ht
    refine ⟨h1, by rw [hactive]; exact h2, ?_, fun y q hq => h4 y q (hcases y q hq).2⟩
    rw [hclosing, mem_insert_set]
    rintro (heq | hin)
    · exact h4 x p hp heq
    · exact h3 hin
  · obtain ⟨hne, hq⟩ := hcases y q hq
    obtain ⟨h1, h2, h3, h4⟩ := h.prepared y q hq
    refine ⟨by rw [hactive]; exact h1, h2, ?_, fun key hk => ?_⟩
    · rw [hclosing, mem_insert_set]
      rintro (heq | hin)
      · exact hother y q hne hq heq.symm
      · exact h3 hin
    · rw [hintents, if_neg]
      · exact h4 key hk
      · rintro ⟨-, hown⟩
        rw [h4 key hk, Option.some.injEq] at hown
        exact hother y q hne hq hown
  · exact h.owner y z q r (hcases y q hq).2 (hcases z r hr).2
  · rw [hintents] at hi
    split at hi
    · cases hi
    · next hnot =>
      obtain ⟨y, q, hq, hqo, hk⟩ := h.intents key owner hi
      refine ⟨y, q, ?_, hqo, hk⟩
      rw [hprep, get_erase, if_neg]
      · exact hq
      · rintro rfl
        rw [hp, Option.some.injEq] at hq
        subst hq
        exact hnot ⟨hk, by rw [hi, hqo]⟩
  · rw [hclosing, mem_insert_set] at hid
    rw [hnext]
    rcases hid with rfl | hid
    · exact h.ids _ _ (h.prepared x p hp).1
    · exact h.closing id hid
  · rw [hfin] at hg
    rw [hnext, htx]
    rcases List.mem_append.mp hg with hg | hg
    · obtain ⟨h1, h2, h3⟩ := h.past g hg
      exact ⟨h1, h2, fun y q hq => h3 y q (hcases y q hq).2⟩
    · rw [List.mem_singleton] at hg
      subst hg
      rw [hf]
      refine ⟨h.ids _ _ (h.prepared x p hp).1, ?_, fun y q hq => ?_⟩
      · cases ht : c.transactions[p.transactionId]? with
        | none => rfl
        | some t => exact absurd rfl ((h.transactions _ t ht).2.2.2 x p hp)
      · exact hother y q (hcases y q hq).1 (hcases y q hq).2

/-- A transaction ends that no commit under way belongs to. -/
theorem close (h : Owned c) {id : Nat}
    (hnot : ∀ (x : Nat) p, c.prepared[x]? = some p → p.transactionId ≠ id)
    (htxs : ∀ t, c'.transactions[id]? ≠ some t)
    (hdb : c'.db = c.db.endTransaction id)
    (htx : ∀ (id' : Nat) t, c'.transactions[id']? = some t → c.transactions[id']? = some t)
    (hprep : c'.prepared = c.prepared) (hclosing : ∀ id', id' ∈ c'.closing → id' ∈ c.closing)
    (hfin : c'.finished = c.finished) : Owned c' := by
  have hactive : ∀ id' : Nat, id' ≠ id → c'.db.active[id']? = c.db.active[id']? := by
    intro id' hne
    rw [hdb, State.endTransaction, get_erase, if_neg (Ne.symm hne)]
  refine ⟨fun id' s hs => ?_, fun id' t ht => ?_, fun y q hq => ?_, by rw [hprep]; exact h.owner,
    ?_, fun id' hid => ?_, fun f hf => ?_⟩
  · rw [hdb] at hs ⊢
    simp only [State.endTransaction, get_erase] at hs ⊢
    split at hs
    · cases hs
    · exact h.ids id' s hs
  · obtain ⟨h1, h2, h3, h4⟩ := h.transactions id' t (htx id' t ht)
    refine ⟨h1, ?_, fun hin => h3 (hclosing id' hin), by rw [hprep]; exact h4⟩
    rw [hactive id' fun heq => htxs t (heq ▸ ht)]
    exact h2
  · rw [hprep] at hq
    obtain ⟨h1, h2, h3, h4⟩ := h.prepared y q hq
    refine ⟨by rw [hactive _ (hnot y q hq)]; exact h1, h2, fun hin => h3 (hclosing _ hin),
      by rw [hdb]; exact h4⟩
  · rw [hprep, hdb]; exact h.intents
  · rw [hdb]
    exact h.closing id' (hclosing id' hid)
  · rw [hfin] at hf
    obtain ⟨h1, h2, h3⟩ := h.past f hf
    refine ⟨by rw [hdb]; exact h1, ?_, by rw [hprep]; exact h3⟩
    cases ht : c'.transactions[f.commit.transactionId]? with
    | none => rfl
    | some t => rw [htx _ t ht] at h2; cases h2

end Owned

end QuantaDb.Mvcc
