import QuantaDb.Mvcc.Machine

/-!
# QuantaDb.Mvcc.Snapshot

What a snapshot reads, and what the version map and the ring of generations must
hold for it.

The history of a database is the list of all versions ever committed, in no
particular order.  `valueAt` is what a key means at a timestamp.  The map holds
only part of the history; `Retains H floor st` says that no snapshot from `floor`
on misses what is gone: a version is gone only behind a newer one that every such
snapshot sees, or because a generation that every such snapshot may use has it.
-/

namespace QuantaDb.Mvcc

open Timeline

/-! ## histories -/

abbrev Versions := List (Key × Version)

/-- The committed versions of one key. -/
def onKey (H : Versions) (key : Key) : List Version :=
  H.filterMap fun entry => if entry.1 = key then some entry.2 else none

@[simp] theorem mem_onKey {H : Versions} {key : Key} {v : Version} :
    v ∈ onKey H key ↔ (key, v) ∈ H := by
  simp only [onKey, List.mem_filterMap, Option.ite_none_right_eq_some, Option.some.injEq]
  constructor
  · rintro ⟨⟨k, w⟩, hmem, rfl, rfl⟩
    exact hmem
  · exact fun h => ⟨(key, v), h, rfl, rfl⟩

/-- The newest version of a key at or before a timestamp. -/
def newestAt (H : Versions) (key : Key) (t : Nat) : Option Version :=
  newest Version.timestamp (onKey H key) t

/-- **The committed value** of a key at a timestamp. -/
def valueAt (H : Versions) (key : Key) (t : Nat) : Option Bytes :=
  (newestAt H key t).bind Version.value

/-- No key has two versions of one timestamp. -/
def Unambiguous (H : Versions) : Prop :=
  ∀ key v w, (key, v) ∈ H → (key, w) ∈ H → v.timestamp = w.timestamp → v = w

/-- `v` is the newest version of the key at or before `t`. -/
abbrev IsNewest (H : Versions) (key : Key) (t : Nat) (v : Version) : Prop :=
  IsLatest Version.timestamp (fun w => (key, w) ∈ H) t v

theorem Unambiguous.distinct {H : Versions} (h : Unambiguous H) (key : Key) :
    Distinct Version.timestamp (fun w => (key, w) ∈ H) := fun v w hv hw => h key v w hv hw

theorem newestAt_eq_some {H : Versions} (h : Unambiguous H) {key : Key} {t : Nat}
    {v : Version} : newestAt H key t = some v ↔ IsNewest H key t v := by
  have hd : Distinct Version.timestamp (· ∈ onKey H key) := by
    simpa only [mem_onKey] using h.distinct key
  rw [newestAt, newest_eq_some hd]
  simp only [mem_onKey]

theorem newestAt_eq_none {H : Versions} {key : Key} {t : Nat} :
    newestAt H key t = none ↔ ∀ v, (key, v) ∈ H → t < v.timestamp := by
  simp only [newestAt, newest_eq_none, mem_onKey]

/-- Two histories that agree up to a timestamp. -/
def AgreeUpTo (t : Nat) (H H' : Versions) : Prop :=
  ∀ key v, v.timestamp ≤ t → ((key, v) ∈ H ↔ (key, v) ∈ H')

theorem AgreeUpTo.isNewest {H H' : Versions} {t s : Nat} (h : AgreeUpTo t H H') (hs : s ≤ t)
    {key : Key} {v : Version} : IsNewest H key s v ↔ IsNewest H' key s v := by
  have himp : ∀ {H H' : Versions}, AgreeUpTo t H H' → IsNewest H key s v → IsNewest H' key s v :=
    fun h hv => ⟨(h key v (Nat.le_trans hv.le hs)).mp hv.mem, hv.le, fun w hw hle =>
      hv.max w ((h key w (Nat.le_trans hle hs)).mpr hw) hle⟩
  exact ⟨himp h, himp fun key w hw => (h key w hw).symm⟩

theorem AgreeUpTo.newestAt {H H' : Versions} {t s : Nat} (h : AgreeUpTo t H H')
    (hu : Unambiguous H) (hu' : Unambiguous H') (hs : s ≤ t) (key : Key) :
    newestAt H key s = newestAt H' key s := by
  refine Option.ext fun v => ?_
  rw [newestAt_eq_some hu, newestAt_eq_some hu', h.isNewest hs]

/-- Versions behind a timestamp do not change what was before it. -/
theorem agreeUpTo_append {H new : Versions} {t : Nat}
    (h : ∀ key v, (key, v) ∈ new → t < v.timestamp) : AgreeUpTo t H (H ++ new) := by
  intro key v hv
  rw [List.mem_append]
  refine ⟨Or.inl, fun hmem => hmem.resolve_right fun hnew => ?_⟩
  exact absurd hv (Nat.not_le.mpr (h key v hnew))

/-! ## generations -/

/-- The key map of a generation is the live part of the history at its
timestamp. -/
def Indexes (H : Versions) (t : Nat) (entries : Std.TreeMap Key Version) : Prop :=
  ∀ key : Key, entries[key]? = (newestAt H key t).filter fun v => v.value.isSome

theorem Indexes.congr {H H' : Versions} {t s : Nat} {entries : Std.TreeMap Key Version}
    (h : Indexes H s entries) (ha : AgreeUpTo t H H') (hu : Unambiguous H) (hu' : Unambiguous H')
    (hs : s ≤ t) : Indexes H' s entries := by
  intro key
  rw [h key, ha.newestAt hu hu' hs]

/-! ## what the state retains -/

namespace State

/-- The versions of a key in the map. -/
abbrev on (st : State) (key : Key) : List Version := st.versions.getD key []

/-- The state holds what snapshots from `floor` on can ask for. -/
structure Retains (H : Versions) (floor : Nat) (st : State) : Prop where
  unambiguous : Unambiguous H
  sorted : ∀ key, (st.on key).Pairwise fun v w => v.timestamp < w.timestamp
  mem : ∀ key v, v ∈ st.on key → (key, v) ∈ H
  upward : ∀ key v w, v ∈ st.on key → (key, w) ∈ H → v.timestamp ≤ w.timestamp → w ∈ st.on key
  lost : ∀ key w, (key, w) ∈ H → w ∉ st.on key →
    (∃ v ∈ st.on key, w.timestamp < v.timestamp ∧ v.timestamp ≤ floor) ∨
      ∃ g ∈ st.generations, w.timestamp ≤ g.timestamp ∧ g.timestamp ≤ floor
  floor_le : floor ≤ st.visibleThrough
  active : ∀ (id : Nat) s, st.active[id]? = some s → floor ≤ s ∧ s ≤ st.visibleThrough
  ring : Sorted Generation.timestamp st.generations
  indexes : ∀ g ∈ st.generations, g.timestamp ≤ st.visibleThrough ∧ Indexes H g.timestamp g.entries
  dirty : ∀ key w, (key, w) ∈ H → (∀ g ∈ st.generations, g.timestamp < w.timestamp) →
    key ∈ st.dirtyKeys

namespace Retains

variable {H : Versions} {floor : Nat} {st : State}

theorem ordered (h : Retains H floor st) (key : Key) : Sorted Version.timestamp (st.on key) :=
  (h.sorted key).imp Nat.le_of_lt

/-- What the map finds is the newest version there ever was. -/
theorem isNewest_of_visible (h : Retains H floor st) {key : Key} {s : Nat} {v : Version}
    (hv : visibleVersion (st.on key) s = some v) : IsNewest H key s v := by
  have hl := latest_isLatest (h.ordered key) hv
  refine ⟨h.mem key v hl.mem, hl.le, fun w hw hle => ?_⟩
  by_contra hlt
  have hmem := h.upward key v w hl.mem hw (by omega)
  exact hlt (hl.max w hmem hle)

/-- What the map has lost, a generation has. -/
theorem isNewest_of_lost (h : Retains H floor st) {key : Key} {s : Nat} (hs : floor ≤ s)
    (hnone : visibleVersion (st.on key) s = none) {v : Version} (hv : IsNewest H key s v) :
    ∃ g, st.generationAt s = some g ∧ IsNewest H key g.timestamp v := by
  have hgone : v ∉ st.on key := fun hmem => by
    have := latest_eq_none.mp hnone v hmem
    have := hv.le
    omega
  rcases h.lost key v hv.mem hgone with ⟨w, hw, -, hle⟩ | ⟨g, hg, hle, hgf⟩
  · have := latest_eq_none.mp hnone w hw
    omega
  · obtain ⟨g', hg'⟩ := exists_latest hg (Nat.le_trans hgf hs)
    have hl := latest_isLatest h.ring hg'
    have := hl.max g hg (Nat.le_trans hgf hs)
    exact ⟨g', hg', hv.mem, by omega, fun w hw hwle => hv.max w hw (Nat.le_trans hwle hl.le)⟩

/-- **A snapshot reads the committed values** of its timestamp. -/
theorem read_eq (h : Retains H floor st) {s : Nat} (hs : floor ≤ s) (key : Key) :
    st.read key s = valueAt H key s := by
  unfold State.read valueAt
  cases hv : visibleVersion (st.on key) s with
  | some v =>
    rw [(newestAt_eq_some h.unambiguous).mpr (h.isNewest_of_visible hv)]
    rfl
  | none =>
    simp only
    cases hn : newestAt H key s with
    | some v =>
      obtain ⟨g, hg, hgv⟩ := h.isNewest_of_lost hs hv ((newestAt_eq_some h.unambiguous).mp hn)
      have hmem := (latest_isLatest h.ring hg).mem
      rw [hg, Option.bind_some, (h.indexes g hmem).2 key,
        (newestAt_eq_some h.unambiguous).mpr hgv, Option.bind_some, Option.filter_some]
      cases hval : v.value with
      | none => rfl
      | some value => simp [hval]
    | none =>
      cases hg : st.generationAt s with
      | none => rfl
      | some g =>
        have hl := latest_isLatest h.ring hg
        have hnone : newestAt H key g.timestamp = none := by
          rw [newestAt_eq_none] at hn ⊢
          exact fun w hw => Nat.lt_of_le_of_lt hl.le (hn w hw)
        rw [Option.bind_some, (h.indexes g hl.mem).2 key, hnone]
        rfl

/-- Versions that some snapshot from `floor` on cannot see stay in the map. -/
theorem mem_of_floor_lt (h : Retains H floor st) {key : Key} {w : Version} (hw : (key, w) ∈ H)
    (hlt : floor < w.timestamp) : w ∈ st.on key := by
  by_contra hgone
  rcases h.lost key w hw hgone with ⟨v, -, hwv, hle⟩ | ⟨g, -, hle, hgf⟩
  · omega
  · omega

end Retains

end State

end QuantaDb.Mvcc
