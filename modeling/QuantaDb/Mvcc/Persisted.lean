import QuantaDb.Mvcc.Reads
import QuantaDb.Mvcc.Writers

/-!
# QuantaDb.Mvcc.Persisted

The machine together with the pages that its commits are written to.

A commit that is prepared takes its places and appends its batch (`persist_commit`), and is
published with the pages it was given.  So what the generations name is on the pages, and reads
that follow their entries find it there, as long as the batches reach the log in the order of their
places (`read_persisted`).
-/

namespace QuantaDb.Mvcc

open TreeMaps

structure Persisted where
  core : Core
  writers : Writers

inductive PersistedAction where
  | act (action : Action)
  | write (action : WriterAction)
deriving DecidableEq, Repr

namespace Persisted

/-- The batch of a commit. -/
def Carries (b : Batch) (commit : Prepared) : Prop :=
  b.timestamp = commit.timestamp ∧ b.writes = commit.writes

instance (b : Batch) (commit : Prepared) : Decidable (Carries b commit) :=
  inferInstanceAs (Decidable (_ ∧ _))

/-- A commit is published with the pages of its batch once this is durable, and abandoned if it
never will be. -/
def admits (s : Persisted) : Action → Bool
  | .finish timestamp pageIds => s.core.prepared[timestamp]?.any fun commit =>
    s.writers.durable.any fun i => s.writers.batches[i]?.any fun b =>
      decide (Carries b commit ∧ b.persisted.pageIds = pageIds)
  | .abandon timestamp => s.writers.durable.all fun i => s.writers.batches[i]?.all fun b =>
      decide (b.timestamp ≠ timestamp)
  | _ => true

/-- Commits under way write their own batches. -/
def allows (s : Persisted) : WriterAction → Bool
  | .reserve timestamp writes => s.core.prepared[timestamp]?.any fun commit =>
    decide (commit.writes = writes)
  | .append batch => s.writers.batches[batch]?.any fun b =>
    s.core.prepared[b.timestamp]?.any fun commit => decide (Carries b commit)

def step (s : Persisted) : PersistedAction → Option Persisted
  | .act action =>
    if s.admits action then (s.core.step action).map fun core => { s with core } else none
  | .write action =>
    if s.allows action then (s.writers.step action).map fun writers => { s with writers } else none

def run (s : Persisted) (actions : List PersistedAction) : Option Persisted := actions.foldlM step s

variable {s s' : Persisted} {c' : Core}

/-- All there is was written since: what is published is durable, and what is durable is under
way or published. -/
structure Matches (s : Persisted) : Prop where
  sound : Sound s.core
  writers : s.writers.Sound
  fresh : s.core.recovered = []
  published : ∀ f ∈ s.core.finished, ∀ pageIds, f.pageIds = some pageIds →
    ∃ i ∈ s.writers.durable, ∃ b, s.writers.batches[i]? = some b ∧ Carries b f.commit ∧
      b.persisted.pageIds = pageIds
  durable : ∀ i ∈ s.writers.durable, ∀ b, s.writers.batches[i]? = some b →
    (∃ x : Nat, ∃ commit, s.core.prepared[x]? = some commit ∧ Carries b commit) ∨
      ∃ f ∈ s.core.finished, f.pageIds ≠ none ∧ Carries b f.commit

/-- A commit ends. -/
theorem Matches.finish (h : Matches s) {x : Nat} {pageIds : Option (List PageId)}
    (hs : s.core.finish x pageIds = some c')
    (hnew : ∀ ids commit, pageIds = some ids → s.core.prepared[x]? = some commit →
      ∃ i ∈ s.writers.durable, ∃ b, s.writers.batches[i]? = some b ∧ Carries b commit ∧
        b.persisted.pageIds = ids)
    (hnone : pageIds = none → ∀ i ∈ s.writers.durable, ∀ b, s.writers.batches[i]? = some b →
      b.timestamp ≠ x) : Matches { s with core := c' } := by
  have hsound := h.sound.finish hs
  obtain ⟨commit, hcommit, -, rfl⟩ := h.sound.finish_eq hs
  refine ⟨hsound, h.writers, h.fresh, fun f hf ids hids => ?_, fun i hi b hb => ?_⟩
  · rcases List.mem_append.mp hf with hf | hf
    · exact h.published f hf ids hids
    · cases List.mem_singleton.mp hf
      exact hnew ids commit hids hcommit
  · rcases h.durable i hi b hb with ⟨y, q, hq, hcarries⟩ | ⟨f, hf, hpublished⟩
    · by_cases heq : x = y
      · subst heq
        rw [hcommit, Option.some.injEq] at hq
        subst hq
        refine .inr ⟨_, List.mem_append_right _ (.head _), fun hnil => ?_, hcarries⟩
        refine hnone hnil i hi b hb (hcarries.1.trans ?_)
        exact (h.sound.orderly.prepared _ _ hcommit).1
      · exact .inl ⟨y, q, by rw [get_erase, if_neg heq, hq], hcarries⟩
    · exact .inr ⟨f, List.mem_append_left _ hf, hpublished⟩

theorem Matches.reserve (h : Matches s) {timestamp : Nat} {writes : List (Key × Option Bytes)}
    {w : Writers} (hw : s.writers.reserve timestamp writes = some w) :
    Matches { s with writers := w } := by
  have hsound := h.writers.reserve hw
  unfold Writers.reserve at hw
  split at hw
  · split at hw
    · cases hw
    · cases hw
      refine ⟨h.sound, hsound, h.fresh, fun f hf ids hids => ?_,
        fun i hi b hb => h.durable i hi b ?_⟩
      · obtain ⟨i, hi, b, hb, hcarries⟩ := h.published f hf ids hids
        have hlt := h.writers.inv.durable i hi
        exact ⟨i, hi, b, by rw [List.getElem?_append_left hlt, hb], hcarries⟩
      · rwa [List.getElem?_append_left (h.writers.inv.durable i hi)] at hb
  · cases hw

theorem Matches.append (h : Matches s) {i : Nat} {w : Writers}
    (hallows : s.allows (.append i) = true) (hw : s.writers.append i = some w) :
    Matches { s with writers := w } := by
  have hsound := h.writers.append hw
  unfold Writers.append at hw
  split at hw
  · cases hw
  · obtain ⟨b, hb, rfl⟩ := Option.map_eq_some_iff.mp hw
    refine ⟨h.sound, hsound, h.fresh, fun f hf ids hids => ?_, fun j hj b' hb' => ?_⟩
    · obtain ⟨j, hj, hpublished⟩ := h.published f hf ids hids
      exact ⟨j, List.mem_append_left _ hj, hpublished⟩
    · rcases List.mem_append.mp hj with hj | hj
      · exact h.durable j hj b' hb'
      · rw [List.mem_singleton.mp hj, hb] at hb'
        cases hb'
        rw [allows, hb, Option.any_some] at hallows
        obtain ⟨commit, hcommit, hcarries⟩ := (Option.any_eq_true _ _).mp hallows
        exact .inl ⟨b.timestamp, commit, hcommit, of_decide_eq_true hcarries⟩

/-- **A step** keeps pages and commits together. -/
theorem Matches.step (h : Matches s) {action : PersistedAction} (hs : s.step action = some s') :
    Matches s' := by
  cases action with
  | act action =>
    rw [Persisted.step] at hs
    split at hs
    · next hadmits =>
      obtain ⟨core, hcore, rfl⟩ := Option.map_eq_some_iff.mp hs
      cases hends : Core.ends action with
      | false =>
        obtain ⟨hrecovered, -, hfinished, hprepared⟩ := Core.of_not_ends h.sound hends hcore
        refine ⟨h.sound.step hcore, h.writers, hrecovered.trans h.fresh, hfinished ▸ h.published,
          fun i hi b hb => ?_⟩
        rcases h.durable i hi b hb with ⟨x, commit, hx, hcarries⟩ | hpublished
        · exact .inl ⟨x, commit, hprepared x commit hx, hcarries⟩
        · exact .inr (hfinished ▸ hpublished)
      | true =>
        cases action with
        | finish x ids =>
          refine h.finish hcore (fun ids' commit heq hcommit => ?_) fun heq => by cases heq
          cases heq
          rw [admits, hcommit, Option.any_some, List.any_eq_true] at hadmits
          obtain ⟨i, hi, hb⟩ := hadmits
          obtain ⟨b, hb, hcarries⟩ := (Option.any_eq_true _ _).mp hb
          exact ⟨i, hi, b, hb, of_decide_eq_true hcarries⟩
        | abandon x =>
          refine h.finish hcore (fun ids' commit heq => by cases heq) fun _ i hi b hb => ?_
          have hall := List.all_eq_true.mp hadmits i hi
          rw [hb, Option.all_some] at hall
          exact of_decide_eq_true hall
        | _ => cases hends
    · cases hs
  | write action =>
    rw [Persisted.step] at hs
    split at hs
    · next hallows =>
      obtain ⟨w, hw, rfl⟩ := Option.map_eq_some_iff.mp hs
      cases action with
      | reserve timestamp writes => exact h.reserve hw
      | append i => exact h.append hallows hw
    · cases hs

theorem Matches.run (h : Matches s) {actions : List PersistedAction}
    (hrun : s.run actions = some s') : Matches s' := by
  induction actions generalizing s with
  | nil =>
    cases hrun
    exact h
  | cons action actions ih =>
    obtain ⟨t, ht, hrun⟩ := Option.bind_eq_some_iff.mp hrun
    exact ih (h.step ht) hrun

/-- An empty database. -/
def start (allocator : PageAllocator) (pages : Pages) : Persisted where
  core := { db := {} }
  writers := { packer := ⟨none, allocator⟩, start := pages }

theorem matches_start {allocator : PageAllocator} (hpooled : allocator.Pooled) (pages : Pages) :
    Matches (start allocator pages) where
  sound := Core.opened_empty.sound
  writers := ⟨.init hpooled pages, .init allocator pages⟩
  fresh := rfl
  published f hf := by cases hf
  durable i hi := by cases hi

variable {key : Key} {v : Version} {snapshot : Nat} {pages : Std.TreeMap PageId Bytes}

/-- The versions of a published commit are the records at the places of its batch. -/
theorem mem_versions {b : Batch} {commit : Prepared} (hcarries : Carries b commit) :
    (key, v) ∈ Finished.versions ⟨commit, some b.persisted.pageIds⟩ ↔
      v.timestamp = b.timestamp ∧ (v.pageId, ⟨v.timestamp, key, v.value⟩) ∈ b.places := by
  obtain ⟨time, value, pageId⟩ := v
  rw [Batch.places, ← List.zip_swap, List.zip_map_left, hcarries.1, hcarries.2]
  simp only [Finished.versions, List.map_map, List.mem_map, Prod.mk.injEq, Version.mk.injEq,
    Function.comp, Prod.map, Prod.swap, VersionRecord.mk.injEq, id]
  constructor
  · rintro ⟨write, hmem, rfl, rfl, rfl, rfl⟩
    exact ⟨rfl, write, hmem, rfl, rfl, rfl, rfl⟩
  · rintro ⟨-, write, hmem, rfl, rfl, rfl, rfl⟩
    exact ⟨write, hmem, rfl, rfl, rfl, rfl⟩

/-- A durable record up to the watermark is of a published version. -/
theorem Matches.mem_history (h : Matches s) {page : PageId} {r : VersionRecord}
    (hr : (r, true) ∈ s.writers.slots page) (hle : r.timestamp ≤ s.core.db.visibleThrough) :
    (r.key, ⟨r.timestamp, r.value, page⟩) ∈ s.core.history := by
  obtain ⟨i, b, hb, hplace, hflag⟩ := Writers.mem_slots.mp hr
  have htime := (Batch.of_mem_places hplace).1
  rcases h.durable i (of_decide_eq_true hflag.symm) b hb with ⟨x, commit, hx, hcarries⟩ |
    ⟨⟨commit, pageIds⟩, hf, hsome, hcarries⟩
  · have hbounds := h.sound.orderly.prepared x commit hx
    rw [htime, hcarries.1, hbounds.1] at hle
    omega
  · obtain ⟨pageIds, rfl⟩ := Option.ne_none_iff_exists'.mp hsome
    obtain ⟨j, -, b', hb', hcarries', rfl⟩ := h.published _ hf _ rfl
    have hij := h.writers.inv.batch_eq hb hb' (hcarries.1.trans hcarries'.1.symm)
    rw [hij, hb', Option.some.injEq] at hb
    subst hb
    refine List.mem_append_right _ (List.mem_flatMap.mpr ⟨_, hf, ?_⟩)
    exact (mem_versions hcarries).mpr ⟨htime, hplace⟩

/-- **The pages behind the index.**  Where the batches reach the log in the order of their places,
the page of the newest version that a snapshot can see shows it. -/
theorem Matches.shows (h : Matches s) (hcontiguous : s.writers.Contiguous)
    (hpages : ∀ id : PageId, s.writers.slots id ≠ [] → pages[id]? = s.writers.pages id)
    (hle : snapshot ≤ s.core.db.visibleThrough) (hnewest : IsNewest s.core.history key snapshot v) :
    (s.core.view snapshot ∅ pages).Shows key v := by
  have hmem := hnewest.mem
  rw [Core.history, h.fresh, List.nil_append, List.mem_flatMap] at hmem
  obtain ⟨⟨commit, pageIds⟩, hf, hv⟩ := hmem
  cases pageIds with
  | none => cases hv
  | some pageIds =>
    obtain ⟨i, hi, b, hb, hcarries, rfl⟩ := h.published _ hf pageIds rfl
    have hplace := ((mem_versions hcarries).mp hv).2
    obtain ⟨records, hrecords, hmem⟩ :=
      h.writers.inv.decoded_iff.mpr hcontiguous i b hi hb _ hplace
    have hslots := Writers.slots_ne_nil (List.mem_of_getElem? hb) hplace
    refine ⟨records, ?_, hmem, fun r hr hkey hseen => ?_⟩
    · rw [decodedRecords, ← hpages _ hslots] at hrecords
      split at hrecords
      · next bytes hbytes =>
        simp [View.indexedRecords, Core.view, hbytes, hrecords, List.ne_nil_of_mem hmem, bind,
          Except.bind]
      · cases hrecords
        cases hmem
    · have hseen : r.timestamp ≤ snapshot := hseen
      rw [h.writers.inv.decodedRecords_eq hslots] at hrecords
      obtain ⟨slot, hslot, rfl⟩ := List.mem_map.mp (Except.ok.inj hrecords ▸ hr)
      have hwritten : (slot.1, true) ∈ s.writers.slots v.pageId := by
        rw [← List.mem_takeWhile_imp hslot]
        exact (List.takeWhile_sublist _).subset hslot
      have hold := h.mem_history hwritten (Nat.le_trans hseen hle)
      rw [hkey] at hold
      rcases Nat.lt_or_eq_of_le (hnewest.max _ hold hseen) with hlt | heq
      · exact .inl hlt
      · obtain ⟨floor, hret⟩ := h.sound.retains
        rw [← hret.unambiguous _ _ _ hold hnewest.mem heq, ← hkey]
        exact .inr rfl

/-- **Reads through the pages.**  Whatever commits and rebuilds have done since the database was
empty, a transaction reads the committed value of its snapshot, also where the version has left the
map and is read from its page, if the batches have reached the log in the order of their places. -/
theorem read_persisted {allocator : PageAllocator} (hpooled : allocator.Pooled) {blank : Pages}
    {actions : List PersistedAction} (hrun : (start allocator blank).run actions = some s)
    (hcontiguous : s.writers.Contiguous)
    (hpages : ∀ id : PageId, s.writers.slots id ≠ [] → pages[id]? = s.writers.pages id) {id : Nat}
    (hactive : s.core.db.active[id]? = some snapshot) :
    (s.core.view snapshot ∅ pages).read key = .ok (valueAt s.core.history key snapshot) := by
  have h := (matches_start hpooled blank).run hrun
  obtain ⟨floor, hr⟩ := h.sound.retains
  obtain ⟨hfloor, hle⟩ := hr.active id snapshot hactive
  refine Core.read_view hr hfloor fun hnone v hentry => h.shows hcontiguous hpages hle ?_
  exact Core.isNewest_of_entry hr hfloor hnone hentry

/-- A commit whose key the index then serves from its page. -/
def indexedCommit : List PersistedAction :=
  [.act .begin, .act (.write 1 [107] (some [1])), .act (.prepare 1),
    .write (.reserve 1 [([107], some [1])]), .write (.append 0), .act (.finish 1 [0]),
    .act (.finishClose 1), .act .capture, .act (.publish 0 9 (some 0)), .act .begin]

theorem read_persisted_indexed : ∃ s, (start {} fun _ => none).run indexedCommit = some s ∧
    s.core.db.versions.isEmpty = true ∧ (s.core.view 1 ∅ Core.keyPage).read [107] =
      .ok (valueAt s.core.history [107] 1) := by
  obtain ⟨s, hs⟩ : ∃ s, (start {} fun _ => none).run indexedCommit = some s :=
    Option.isSome_iff_exists.mp (by decide +kernel)
  have hcore : ((start {} fun _ => none).run indexedCommit).map (fun s =>
      (s.core.db.versions.isEmpty, s.core.db.active[2]?)) = some (true, some 1) := by
    decide +kernel
  have hwriters : ((start {} fun _ => none).run indexedCommit).map (fun s =>
      (s.writers.batches.map Batch.places, s.writers.pages 0)) =
      some ([[(0, ⟨1, [107], some [1]⟩)]], some (VersionRecord.bytes ⟨1, [107], some [1]⟩)) := by
    decide +kernel
  rw [hs, Option.map_some, Option.some.injEq, Prod.mk.injEq] at hcore hwriters
  obtain ⟨hempty, hactive⟩ := hcore
  obtain ⟨hbatches, hpage⟩ := hwriters
  refine ⟨s, hs, hempty, read_persisted (fun id hid => absurd hid Std.TreeSet.not_mem_emptyc) hs
    (fun i j b b' hij _ hb' => ?_) (fun id hid => ?_) hactive⟩
  · have hlen := congrArg List.length hbatches
    obtain ⟨hlt, -⟩ := List.getElem?_eq_some_iff.mp hb'
    simp at hlen
    omega
  · obtain ⟨slot, hslot⟩ := List.exists_mem_of_ne_nil _ hid
    obtain ⟨i, b, hb, hplace, -⟩ := Writers.mem_slots.mp hslot
    have hmem := List.mem_map_of_mem (f := Batch.places) (List.mem_of_getElem? hb)
    rw [hbatches, List.mem_singleton] at hmem
    rw [hmem, List.mem_singleton, Prod.mk.injEq] at hplace
    rw [hplace.1, hpage]
    exact get_insert_self _ _ _

end Persisted

end QuantaDb.Mvcc
