import Mathlib

/-!
# QuantaDb.Lib.Scanning

Reading a list from the left as long as a condition holds.
-/

namespace Scanning

variable {α : Type} (p : α → Bool) (xs : List α)

theorem take_takeWhile_length : xs.take (xs.takeWhile p).length = xs.takeWhile p := by
  have hfront : xs.takeWhile p <+: xs := List.takeWhile_prefix p
  exact (List.prefix_iff_eq_take.mp hfront).symm

theorem drop_takeWhile_length : xs.drop (xs.takeWhile p).length = xs.dropWhile p := by
  have h := congrArg (List.drop (xs.takeWhile p).length) (@List.takeWhile_append_dropWhile _ p xs)
  rw [List.drop_left] at h
  exact h.symm

/-- Reading stops at the first element that does not satisfy the condition. -/
theorem dropWhile_stops {y : α} {ys : List α} (h : xs.dropWhile p = y :: ys) : p y = false := by
  have hhead := List.head?_dropWhile_not p xs
  rw [h] at hhead
  exact hhead

/-- Reading a list whose first part satisfies the condition and whose rest stops it. -/
theorem takeWhile_append_of_stop {xs ys : List α} (hxs : ∀ x ∈ xs, p x = true)
    (hys : ∀ y ∈ ys.head?, p y = false) :
    (xs ++ ys).takeWhile p = xs ∧ (xs ++ ys).dropWhile p = ys := by
  induction xs with
  | nil =>
    cases ys with
    | nil => simp
    | cons y ys => simp [hys y rfl]
  | cons x xs ih =>
    rw [List.forall_mem_cons] at hxs
    simp [hxs.1, ih hxs.2]

end Scanning
