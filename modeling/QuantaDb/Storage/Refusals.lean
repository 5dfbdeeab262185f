import QuantaDb.Lib.Fallible
import QuantaDb.Storage.Calls

/-!
# QuantaDb.Storage.Refusals

Batches that are refused because an append would not fit its page.

`write_pages_with` checks its pages before anything else, and a batch it refuses
leaves the store as it was.  `append_pages` and `apply_batch` check their appends
behind the point from which every error poisons the store: the store is then closed
to later batches (`batchCall_kept_iff`), and the page writes of a mixed batch are in
the log and visible.  An append batch of its own leaves at least the log and the pages
alone (`appendPages_of_overflow`).
-/

namespace QuantaDb

open Crash Prog DurableStore

/-- Where the bytes of an append end. -/
def PageAppend.stop (append : PageAppend) : Nat := append.offset.toNat + append.payload.length

/-- The two calls that take appends. -/
inductive BatchEntry where
  | appendPages (appends : List PageAppend)
  | applyBatch (writes : List PageWrite) (appends : List PageAppend) (durable : Bool)
deriving DecidableEq, Repr

namespace BatchEntry

def appends : BatchEntry → List PageAppend
  | appendPages appends => appends
  | applyBatch _ appends _ => appends

/-- The call; the LSNs it returns are dropped. -/
def prog (order : HashOrder) : BatchEntry → StoreM Unit
  | appendPages appends => do
      let _ ← DurableStore.appendPages order appends
  | applyBatch writes appends durable => do
      let _ ← DurableStore.applyBatch order writes appends durable

end BatchEntry

/-- A call left the store as it was: the log with its counter, the dirty table, what is
read of every page, and which batches are accepted. -/
structure Kept (s s' : DurableStore) : Prop where
  log : s'.wal = s.wal
  dirty : s'.dirty = s.dirty
  content : ∀ id, s'.readPage id = s.readPage id
  accepts : ∀ order writes appends durable,
    (applyBatch order writes appends durable s').result.isOk =
      (applyBatch order writes appends durable s).result.isOk

theorem Kept.refl (s : DurableStore) : Kept s s := ⟨rfl, rfl, fun _ => rfl, fun _ _ _ _ => rfl⟩

/-! ## what the appends of a batch must satisfy -/

theorem growOne_fits {s : DurableStore} {grown grown' : Std.TreeMap PageId Bytes}
    {append : PageAppend} (h : s.growOne grown append = .ok grown') :
    append.stop ≤ maxPagePayload := by
  unfold growOne at h
  split at h
  · cases h
  · simp only [Fallible.ite_error_eq_ok] at h
    exact Nat.le_of_not_lt h.1

/-- The images of a batch are made only if all its appends fit. -/
theorem grow_fits {s : DurableStore} {appends : List PageAppend}
    {grown : Std.TreeMap PageId Bytes} (h : grow appends s = .ok grown) :
    ∀ append ∈ appends, append.stop ≤ maxPagePayload := by
  unfold grow at h
  generalize (∅ : Std.TreeMap PageId Bytes) = start at h
  induction appends generalizing start with
  | nil => simp
  | cons append appends ih =>
    rw [List.foldlM_cons, Fallible.bind_eq_ok] at h
    obtain ⟨middle, hone, h⟩ := h
    exact List.forall_mem_cons.mpr ⟨growOne_fits hone, ih middle h⟩

theorem appendPagesInner_fits {order : HashOrder} {appends : List PageAppend} {durable : Bool}
    {s s' : DurableStore} {lsns : List Nat}
    (h : Ran (appendPagesInner order appends durable) s lsns s') :
    ∀ append ∈ appends, append.stop ≤ maxPagePayload := by
  rw [appendPagesInner, ran_bind] at h
  obtain ⟨grown, _, hgrow, -⟩ := h
  exact grow_fits (ran_attempt.mp hgrow).1

theorem applyBatchInner_fits {order : HashOrder} {writes : List PageWrite}
    {appends : List PageAppend} {durable : Bool} {s s' : DurableStore} {lsns : List Nat × List Nat}
    (h : Ran (applyBatchInner order writes appends durable) s lsns s') :
    ∀ append ∈ appends, append.stop ≤ maxPagePayload := by
  simp only [applyBatchInner, ran_bind, ran_ite] at h
  obtain ⟨_, _, -, _, _, happends, -⟩ := h
  rcases happends with ⟨rfl, -⟩ | ⟨-, happends⟩
  · simp
  · exact appendPagesInner_fits happends

/-! ## poisoning -/

section

variable {α : Type} {m : StoreM α} {s : DurableStore}

theorem guarded_of_poisoned (m : StoreM α) (hs : s.poisoned = true) :
    (refuseIfPoisoned >>= fun _ => poisonOnError m) s = ⟨[], s, .error .poisoned⟩ := by
  simp [refuseIfPoisoned, bind, Prog.read, Prog.when, Prog.fail, hs]

/-- A store that is not poisoned runs the operation. -/
theorem guarded_of_open (m : StoreM α) (hs : s.poisoned = false) :
    (refuseIfPoisoned >>= fun _ => poisonOnError m) s = poisonOnError m s := by
  simp [refuseIfPoisoned, bind, Prog.read, Prog.when, pure, hs]

theorem poisonOnError_of_error {e : StorageError} (h : (m s).result = .error e) :
    poisonOnError m s = { m s with state := (m s).state.poison } := by
  simp [poisonOnError, h, DurableStore.poison]

/-- A store that is not poisoned accepts the empty batch; a poisoned one accepts none. -/
theorem not_kept_of_poisoned {s' : DurableStore} (hs : s.poisoned = false)
    (hs' : s'.poisoned = true) : ¬Kept s s' := by
  intro hkept
  have haccepts := hkept.accepts .sorted [] [] false
  unfold applyBatch at haccepts
  rw [guarded_of_poisoned _ hs', guarded_of_open _ hs] at haccepts
  cases haccepts

/-- An operation that cannot return poisons the store it is run on. -/
theorem poisoned_of_not_ran (hs : s.poisoned = false) (hran : ∀ a s', ¬Ran m s a s') :
    ((refuseIfPoisoned >>= fun _ => poisonOnError m) s).state = (m s).state.poison := by
  rw [guarded_of_open m hs]
  cases hr : (m s).result with
  | ok a => exact absurd ⟨hr, rfl⟩ (hran a _)
  | error e => rw [poisonOnError_of_error hr]

/-- Dropping the result of a call leaves the same store. -/
theorem state_drop (m : StoreM α) (s : DurableStore) :
    ((do let _ ← m) s : Outcome _ _ _ Unit).state = (m s).state := by
  cases hr : (m s).result with
  | ok a => rw [bind_run_ok hr]; rfl
  | error e => rw [bind_run_error hr]

end

/-! ## refused batches -/

/-- `append_pages` with an append that does not fit changes the flag and nothing else. -/
theorem appendPages_of_overflow (order : HashOrder) {appends : List PageAppend} {s : DurableStore}
    (hs : s.poisoned = false) (h : ∃ append ∈ appends, maxPagePayload < append.stop) :
    (appendPages order appends s).state = s.poison := by
  obtain ⟨append, hmem, hstop⟩ := h
  have hgrow : ∃ e, grow appends s = .error e := by
    cases hg : grow appends s with
    | error e => exact ⟨e, rfl⟩
    | ok grown => exact absurd (grow_fits hg append hmem) (Nat.not_le.mpr hstop)
  obtain ⟨e, he⟩ := hgrow
  have hrun : appendPagesInner order appends true s = ⟨[], s, .error e⟩ :=
    bind_run_error (m := attempt (grow appends)) he
  rw [appendPages, if_neg (List.ne_nil_of_mem hmem), guarded_of_open _ hs,
    poisonOnError_of_error (by rw [hrun]), hrun]

/-- **A refused batch**: `append_pages` and `apply_batch` leave the store as it was
exactly if it was poisoned before, or if there is no append to refuse. -/
theorem batchCall_kept_iff (order : HashOrder) (call : BatchEntry) (s : DurableStore) :
    ((∃ append ∈ call.appends, maxPagePayload < append.stop) →
        Kept s (call.prog order s).state) ↔
      s.poisoned = true ∨ ∀ append ∈ call.appends, append.stop ≤ maxPagePayload := by
  constructor
  · intro hkept
    by_contra hnot
    rw [not_or, Bool.not_eq_true] at hnot
    obtain ⟨hs, hfits⟩ := hnot
    simp only [not_forall, Nat.not_le] at hfits
    obtain ⟨append, hmem, hstop⟩ := hfits
    refine not_kept_of_poisoned hs ?_ (hkept ⟨append, hmem, hstop⟩)
    cases call with
    | appendPages appends =>
      have hover : ∃ append ∈ appends, maxPagePayload < append.stop := ⟨append, hmem, hstop⟩
      rw [BatchEntry.prog, state_drop, appendPages_of_overflow order hs hover]
      rfl
    | applyBatch writes appends durable =>
      rw [BatchEntry.prog, state_drop, applyBatch, poisoned_of_not_ran hs]
      · rfl
      · intro lsns s' hran
        exact absurd (applyBatchInner_fits hran append hmem) (Nat.not_le.mpr hstop)
  · rintro (hs | hfits) ⟨append, hmem, hstop⟩
    · have hstate : (call.prog order s).state = s := by
        cases call with
        | appendPages appends =>
          have hne : appends ≠ [] := List.ne_nil_of_mem hmem
          rw [BatchEntry.prog, state_drop, appendPages, if_neg hne, guarded_of_poisoned _ hs]
        | applyBatch writes appends durable =>
          rw [BatchEntry.prog, state_drop, applyBatch, guarded_of_poisoned _ hs]
      rw [hstate]
      exact .refl s
    · exact absurd (hfits append hmem) (Nat.not_le.mpr hstop)

/-- One byte behind the end of page 1, alone and together with a write of page 0, on a
store that was just created: it is closed to the next batch, and page 0 has its new
content in the log and for readers. -/
theorem overflow_poisons :
    (BatchEntry.prog .sorted (.appendPages [⟨1, 8128, [0], false⟩]) (attach {})).result =
        .error (.pageTooLarge 8129 8128) ∧
      (applyBatch .sorted [⟨0, [7]⟩] [] true (attach {})).result.isOk = true ∧
      (applyBatch .sorted [⟨0, [7]⟩] [] true
        (BatchEntry.prog .sorted (.appendPages [⟨1, 8128, [0], false⟩]) (attach {})).state).result =
          .error .poisoned ∧
    (BatchEntry.prog .sorted (.applyBatch [⟨0, [7]⟩] [⟨1, 8128, [0], false⟩] true)
        (attach {})).result = .error (.pageTooLarge 8129 8128) ∧
      (attach {}).wal.records = [] ∧
      (BatchEntry.prog .sorted (.applyBatch [⟨0, [7]⟩] [⟨1, 8128, [0], false⟩] true)
        (attach {})).state.wal.records = [⟨1, .pageImage 0 [7]⟩, ⟨2, .batchCommit 1⟩] ∧
      (attach {}).readPage 0 = .ok none ∧
      (BatchEntry.prog .sorted (.applyBatch [⟨0, [7]⟩] [⟨1, 8128, [0], false⟩] true)
        (attach {})).state.readPage 0 = .ok (some ⟨0, 1, [7], by decide⟩) := by
  decide +kernel

end QuantaDb
