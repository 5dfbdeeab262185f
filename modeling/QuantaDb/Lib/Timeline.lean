import Mathlib

/-!
# QuantaDb.Lib.Timeline

Lists of timed things, and the latest one at or before an instant.

`latest` walks a list that is kept in order from its end; `newest` makes no
assumption about order and is what a history means.  `IsLatest` is the property
they share.  `drained` and `kept` split an ordered list at its latest element,
which is how a store forgets what no reader at or after the instant can ask for.
-/

namespace Timeline

variable {α : Type} (time : α → Nat)

/-- `a` is a latest element of the collection `s` at or before `now`. -/
structure IsLatest (s : α → Prop) (now : Nat) (a : α) : Prop where
  mem : s a
  le : time a ≤ now
  max : ∀ b, s b → time b ≤ now → time b ≤ time a

/-- Different elements have different times. -/
def Distinct (s : α → Prop) : Prop := ∀ a b, s a → s b → time a = time b → a = b

/-- The list is in order of time. -/
abbrev Sorted (l : List α) : Prop := l.Pairwise fun a b => time a ≤ time b

/-- The last element at or before `now`. -/
def latest (l : List α) (now : Nat) : Option α := l.reverse.find? fun a => decide (time a ≤ now)

/-- An element of the greatest time at or before `now`. -/
def newest (l : List α) (now : Nat) : Option α :=
  (l.filter fun a => decide (time a ≤ now)).argmax time

variable {time}

variable {now : Nat}

theorem IsLatest.unique {s : α → Prop} (hd : Distinct time s) {a b : α}
    (ha : IsLatest time s now a) (hb : IsLatest time s now b) : a = b :=
  hd a b ha.mem hb.mem (Nat.le_antisymm (hb.max a ha.mem ha.le) (ha.max b hb.mem hb.le))

/-! ## unordered lists -/

theorem newest_isLatest {l : List α} {a : α} (h : newest time l now = some a) :
    IsLatest time (· ∈ l) now a := by
  have hmem := List.argmax_mem h
  rw [List.mem_filter, decide_eq_true_eq] at hmem
  refine ⟨hmem.1, hmem.2, fun b hb hle => List.le_of_mem_argmax ?_ h⟩
  rw [List.mem_filter, decide_eq_true_eq]
  exact ⟨hb, hle⟩

theorem newest_eq_none {l : List α} :
    newest time l now = none ↔ ∀ a ∈ l, now < time a := by
  simp [newest, List.argmax_eq_none, List.filter_eq_nil_iff]

theorem newest_eq_some {l : List α} (hd : Distinct time (· ∈ l)) {a : α} :
    newest time l now = some a ↔ IsLatest time (· ∈ l) now a := by
  refine ⟨newest_isLatest, fun h => ?_⟩
  cases hn : newest time l now with
  | none => exact absurd h.le (Nat.not_le.mpr (newest_eq_none.mp hn a h.mem))
  | some b => rw [(newest_isLatest hn).unique hd h]

/-! ## ordered lists -/

/-- A list in order of time. -/
theorem mergeSort_sorted (time : α → Nat) (l : List α) :
    Sorted time (l.mergeSort fun a b => decide (time a ≤ time b)) := by
  have hle : (l.mergeSort fun a b => decide (time a ≤ time b)).Pairwise
      fun a b => decide (time a ≤ time b) = true := by
    refine List.pairwise_mergeSort (fun a b c hab hbc => ?_) (fun a b => ?_) l
    · simp only [decide_eq_true_eq] at hab hbc ⊢
      exact Nat.le_trans hab hbc
    · simpa using Nat.le_total (time a) (time b)
  exact hle.imp of_decide_eq_true

theorem latest_eq_none {l : List α} :
    latest time l now = none ↔ ∀ a ∈ l, now < time a := by
  simp [latest, List.find?_eq_none]

/-- Where the latest element stands. -/
theorem latest_split {l : List α} {a : α} (h : latest time l now = some a) :
    time a ≤ now ∧ ∃ before after, l = before ++ a :: after ∧ ∀ b ∈ after, now < time b := by
  obtain ⟨hle, back, front, hsplit, hback⟩ := List.find?_eq_some_iff_append.mp h
  refine ⟨by simpa using hle, front.reverse, back.reverse, ?_, fun b hb => ?_⟩
  · rw [← List.reverse_reverse l, hsplit]
    simp
  · have := hback b (List.mem_reverse.mp hb)
    simpa using this

theorem latest_isLatest {l : List α} (hs : Sorted time l) {a : α} (h : latest time l now = some a) :
    IsLatest time (· ∈ l) now a := by
  obtain ⟨hle, before, after, rfl, hafter⟩ := latest_split h
  refine ⟨by simp, hle, fun b hb hble => ?_⟩
  rcases List.mem_append.mp hb with hb | hb
  · exact (List.pairwise_append.mp hs).2.2 b hb a List.mem_cons_self
  · rcases List.mem_cons.mp hb with rfl | hb
    · exact Nat.le_refl _
    · exact absurd hble (Nat.not_le.mpr (hafter b hb))

theorem exists_latest {l : List α} {a : α} (ha : a ∈ l) (hle : time a ≤ now) :
    ∃ b, latest time l now = some b := by
  cases h : latest time l now with
  | none => exact absurd hle (Nat.not_le.mpr (latest_eq_none.mp h a ha))
  | some b => exact ⟨b, rfl⟩

/-! ## forgetting -/

variable (time)

/-- How many elements stand before the latest one. -/
def latestPosition (l : List α) (now : Nat) : Nat :=
  match l.reverse.findIdx? fun a => decide (time a ≤ now) with
  | none => 0
  | some back => l.length - 1 - back

/-- The elements before the latest one. -/
def drained (l : List α) (now : Nat) : List α := l.take (latestPosition time l now)

/-- The latest element and those after it; everything, if there is none. -/
def kept (l : List α) (now : Nat) : List α := l.drop (latestPosition time l now)

variable {time}

theorem drained_append_kept (time : α → Nat) (l : List α) (now : Nat) :
    drained time l now ++ kept time l now = l := List.take_append_drop _ _

theorem kept_sublist (l : List α) (now : Nat) : (kept time l now).Sublist l := List.drop_sublist _ _

theorem latestPosition_of_none {l : List α} (h : latest time l now = none) :
    latestPosition time l now = 0 := by
  have : (l.reverse.findIdx? fun a => decide (time a ≤ now)) = none := by
    rw [List.findIdx?_eq_none_iff]
    intro a ha
    have := latest_eq_none.mp h a (List.mem_reverse.mp ha)
    simpa using this
  simp [latestPosition, this]

theorem latestPosition_of_split {before after : List α} {a : α} (hle : time a ≤ now)
    (hafter : ∀ b ∈ after, now < time b) :
    latestPosition time (before ++ a :: after) now = before.length := by
  have hidx : ((before ++ a :: after).reverse.findIdx? fun a => decide (time a ≤ now)) =
      some after.length := by
    rw [List.reverse_append, List.reverse_cons, List.append_assoc, List.findIdx?_append,
      List.findIdx?_eq_none_iff.mpr, List.singleton_append, List.findIdx?_cons]
    · simp [hle]
    · intro b hb
      simpa using hafter b (List.mem_reverse.mp hb)
  rw [latestPosition, hidx]
  simp

/-- An ordered list splits at its latest element. -/
theorem kept_eq_cons {l : List α} {a : α} (h : latest time l now = some a) :
    ∃ after, kept time l now = a :: after ∧ ∀ b ∈ after, now < time b := by
  obtain ⟨hle, before, after, rfl, hafter⟩ := latest_split h
  exact ⟨after, by rw [kept, latestPosition_of_split hle hafter, List.drop_left], hafter⟩

/-- Of a list that is all in the past only the latest element is kept. -/
theorem kept_of_le {l : List α} (hle : ∀ a ∈ l, time a ≤ now) :
    kept time l now = (latest time l now).toList := by
  cases h : latest time l now with
  | none =>
    cases l with
    | nil => rfl
    | cons a l =>
      have := latest_eq_none.mp h a List.mem_cons_self
      have := hle a List.mem_cons_self
      omega
  | some a =>
    obtain ⟨after, hk, hafter⟩ := kept_eq_cons h
    have hsub : (kept time l now).Sublist l := kept_sublist l now
    cases after with
    | nil => exact hk
    | cons b after =>
      have hb := hafter b List.mem_cons_self
      have := hle b (hsub.subset (by simp [hk]))
      omega

theorem drained_of_none {l : List α} (h : latest time l now = none) :
    drained time l now = [] := by
  rw [drained, latestPosition_of_none h, List.take_zero]

theorem mem_drained_or_kept (time : α → Nat) {l : List α} (now : Nat) {a : α} (h : a ∈ l) :
    a ∈ drained time l now ∨ a ∈ kept time l now := by
  rw [← drained_append_kept time l now, List.mem_append] at h
  exact h

/-- What is drained has something in its place that is kept. -/
theorem exists_kept_of_mem_drained {l : List α} (hs : Sorted time l) {a : α}
    (h : a ∈ drained time l now) : ∃ b ∈ kept time l now, time a ≤ time b ∧ time b ≤ now := by
  cases hl : latest time l now with
  | none =>
    rw [drained_of_none hl] at h
    cases h
  | some b =>
    obtain ⟨after, hk, -⟩ := kept_eq_cons hl
    refine ⟨b, by simp [hk], ?_, (latest_isLatest hs hl).le⟩
    rw [← drained_append_kept time l now, hk] at hs
    exact (List.pairwise_append.mp hs).2.2 a h b List.mem_cons_self

end Timeline
