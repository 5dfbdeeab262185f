import QuantaDb.Mvcc.Scans

/-!
# QuantaDb.Mvcc.Footprint

Whose step it is.

A step of the machine is about one transaction or about none, and leaves all others where they
stood (`Untouched.of_step`).  A transaction that has ended without a commit stays so
(`Over.run`).
-/

namespace QuantaDb.Mvcc

open TreeMaps

namespace Core

variable {c c' : Core}

/-- The transactions that have committed writes. -/
def committed (c : Core) : List Nat :=
  (c.finished.filter fun f => f.pageIds.isSome).map fun f => f.commit.transactionId

/-- The transaction that a step is about. -/
def concerns (c : Core) : Action → Option Nat
  | .begin => some c.db.nextTransactionId
  | .write id _ _ | .protectScans id | .scanPrefix id _ | .prepare id | .close id
  | .finishClose id => some id
  | .finish timestamp _ | .abandon timestamp => c.prepared[timestamp]?.map Prepared.transactionId
  | .capture | .publish _ _ _ | .drop _ => none

/-- A transaction stands where it stood. -/
structure Untouched (id : Nat) (c c' : Core) : Prop where
  next : c.db.nextTransactionId ≤ c'.db.nextTransactionId
  transaction : c'.transactions[id]? = c.transactions[id]?
  prepared : ∀ (x : Nat) p, p.transactionId = id →
    (c'.prepared[x]? = some p ↔ c.prepared[x]? = some p)
  closing : id ∈ c'.closing ↔ id ∈ c.closing
  committed : id ∈ c'.committed ↔ id ∈ c.committed

namespace Untouched

theorem refl (id : Nat) (c : Core) : Untouched id c c :=
  ⟨Nat.le_refl _, rfl, fun _ _ _ => Iff.rfl, Iff.rfl, Iff.rfl⟩

/-- Steps that give no new ids, prepare no commits and finish none. -/
theorem of_eq {id : Nat} (hnext : c'.db.nextTransactionId = c.db.nextTransactionId)
    (htx : c'.transactions[id]? = c.transactions[id]?) (hprep : c'.prepared = c.prepared)
    (hclosing : id ∈ c'.closing ↔ id ∈ c.closing) (hfin : c'.finished = c.finished) :
    Untouched id c c' :=
  ⟨Nat.le_of_eq hnext.symm, htx, fun _ _ _ => by rw [hprep], hclosing, by
    rw [Core.committed, hfin, Core.committed]⟩

theorem of_finish (hs : Sound c) {x : Nat} {pageIds : Option (List PageId)}
    (hf : c.finish x pageIds = some c') {id : Nat}
    (hne : c.prepared[x]?.map Prepared.transactionId ≠ some id) : Untouched id c c' := by
  obtain ⟨p, hp, -, rfl⟩ := hs.finish_eq hf
  obtain ⟨versions, pageRefs, dirtyKeys, hst⟩ := c.db.settle_eq p.transactionId x p.writes pageIds
  obtain ⟨completed, visible, hdone, -⟩ :=
    (c.db.settle p.transactionId x p.writes pageIds).complete_eq x
  rw [hp, Option.map_some, ne_eq, Option.some.injEq] at hne
  refine ⟨?_, rfl, fun y q hq => ?_, ?_, ?_⟩
  · rw [hdone, hst]
    exact Nat.le_refl _
  · rw [get_erase]
    split
    · next heq =>
      subst heq
      rw [hp, Option.some.injEq]
      exact ⟨fun h => absurd h (by simp), fun h => absurd (h ▸ hq) hne⟩
    · exact Iff.rfl
  · rw [mem_insert_set]
    exact or_iff_right hne
  · simp only [Core.committed, List.filter_append, List.map_append, List.mem_append]
    refine or_iff_left fun hmem => ?_
    cases pageIds with
    | none => cases hmem
    | some pageIds => exact hne (List.mem_singleton.mp hmem).symm

/-- **A step** leaves all transactions alone but the one it is about. -/
theorem of_step (hs : Sound c) {action : Action} (h : c.step action = some c') {id : Nat}
    (hne : c.concerns action ≠ some id) : Untouched id c c' := by
  have hupdate : ∀ {id'}, id' ≠ id → ((∃ key value, c.write id' key value = some c') ∨
      c.protectScans id' = some c' ∨ ∃ start, c.scanPrefix id' start = some c') →
      Untouched id c c' := by
    intro id' hne h
    obtain ⟨t, t', scans, -, -, -, rfl⟩ := update_eq h
    exact of_eq rfl (by rw [get_insert, if_neg hne]) rfl Iff.rfl rfl
  have hid : ∀ {id'}, (some id' : Option Nat) ≠ some id → id' ≠ id := fun h heq => h (heq ▸ rfl)
  cases action with
  | begin =>
    rw [begin_eq h]
    exact ⟨Nat.le_succ _, by rw [get_insert, if_neg (hid hne)], fun _ _ _ => Iff.rfl, Iff.rfl,
      Iff.rfl⟩
  | write id' key value => exact hupdate (hid hne) (.inl ⟨key, value, h⟩)
  | protectScans id' => exact hupdate (hid hne) (.inr (.inl h))
  | scanPrefix id' start => exact hupdate (hid hne) (.inr (.inr ⟨start, h⟩))
  | prepare id' =>
    obtain ⟨t, -, -, rfl⟩ := prepare_eq h
    refine ⟨Nat.le_refl _, by rw [get_erase, if_neg (hid hne)], fun x p hp => ?_, Iff.rfl, Iff.rfl⟩
    rw [get_insert]
    split
    · next heq =>
      subst heq
      refine ⟨fun h => ?_, fun h => ?_⟩
      · cases h
        exact absurd hp (hid hne)
      · exact absurd (hs.orderly.prepared _ p h).2.2 (Nat.lt_irrefl _)
    · exact Iff.rfl
  | finish timestamp pageIds => exact of_finish hs h hne
  | abandon timestamp => exact of_finish hs h hne
  | close id' =>
    obtain ⟨-, rfl⟩ := close_eq h
    exact of_eq rfl (by rw [get_erase, if_neg (hid hne)]) rfl Iff.rfl rfl
  | finishClose id' =>
    obtain ⟨-, rfl⟩ := finishClose_eq h
    exact of_eq rfl rfl rfl (by rw [mem_erase_set]; exact and_iff_right (hid hne)) rfl
  | capture =>
    obtain ⟨b, -, rfl⟩ := Option.map_eq_some_iff.mp h
    exact of_eq rfl rfl rfl Iff.rfl rfl
  | publish build manifestPageId openPage =>
    obtain ⟨b, -, rfl⟩ := Option.map_eq_some_iff.mp h
    obtain ⟨versions, pageRefs, generations, dirtyKeys, hst⟩ :=
      c.db.publish_eq ⟨b.timestamp, b.entries, manifestPageId⟩ openPage
    exact of_eq (by rw [hst]) rfl rfl Iff.rfl rfl
  | drop build =>
    obtain ⟨b, -, rfl⟩ := Option.map_eq_some_iff.mp h
    exact of_eq rfl rfl rfl Iff.rfl rfl

end Untouched

/-- A transaction that has ended without a commit. -/
structure Over (id : Nat) (c : Core) : Prop where
  below : id < c.db.nextTransactionId
  transaction : c.transactions[id]? = none
  prepared : ∀ (x : Nat) p, c.prepared[x]? = some p → p.transactionId ≠ id
  lost : id ∉ c.committed

/-- A transaction that is rolled back, dropped or refused is over. -/
theorem Over.of_close (hs : Sound c) {id : Nat} (h : c.close id = some c') : Over id c' := by
  obtain ⟨hin, rfl⟩ := close_eq h
  obtain ⟨t, ht⟩ := (mem_iff_get _ _).mp hin
  obtain ⟨-, hactive, -, hprepared⟩ := hs.owned.transactions id t ht
  refine ⟨hs.owned.ids id _ hactive, by rw [get_erase, if_pos rfl], hprepared, fun hmem => ?_⟩
  obtain ⟨f, hf, hid⟩ := List.mem_map.mp hmem
  have := (hs.owned.past f (List.mem_of_mem_filter hf)).2.1
  rw [hid, ht] at this
  cases this

/-- What is over stays over. -/
theorem Over.step {id : Nat} (h : Over id c) (hs : Sound c) {action : Action}
    (hstep : c.step action = some c') : Over id c' := by
  by_cases hconcerns : c.concerns action = some id
  · have htransaction := h.transaction
    cases action with
    | finishClose id' =>
      obtain ⟨-, rfl⟩ := finishClose_eq hstep
      exact ⟨h.below, h.transaction, h.prepared, h.lost⟩
    | begin => exact absurd (Option.some.inj hconcerns) (Nat.ne_of_gt h.below)
    | finish timestamp pageIds =>
      obtain ⟨p, hp, hid⟩ := Option.map_eq_some_iff.mp hconcerns
      exact absurd hid (h.prepared _ p hp)
    | abandon timestamp =>
      obtain ⟨p, hp, hid⟩ := Option.map_eq_some_iff.mp hconcerns
      exact absurd hid (h.prepared _ p hp)
    | capture => cases hconcerns
    | publish build manifestPageId openPage => cases hconcerns
    | drop build => cases hconcerns
    | close id' =>
      cases hconcerns
      obtain ⟨hin, -⟩ := close_eq hstep
      obtain ⟨t, ht⟩ := (mem_iff_get _ _).mp hin
      rw [ht] at htransaction
      cases htransaction
    | _ =>
      cases hconcerns
      simp [Core.step, write, protectScans, scanPrefix, prepare, htransaction] at hstep
  · have hsame := Untouched.of_step hs hstep hconcerns
    refine ⟨Nat.lt_of_lt_of_le h.below hsame.next, hsame.transaction.trans h.transaction,
      fun x p hp hid => h.prepared x p ((hsame.prepared x p hid).mp hp) hid,
      fun hmem => h.lost (hsame.committed.mp hmem)⟩

theorem Over.run {id : Nat} (h : Over id c) (hs : Sound c) {actions : List Action}
    (hrun : c.run actions = some c') : Over id c' :=
  (run_invariant (fun d => Sound d ∧ Over id d)
    (fun hd hstep => ⟨hd.1.step hstep, hd.2.step hd.1 hstep⟩) ⟨hs, h⟩ hrun).2

end Core

end QuantaDb.Mvcc
