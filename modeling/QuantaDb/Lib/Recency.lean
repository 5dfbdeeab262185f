import Mathlib

/-!
# QuantaDb.Lib.Recency

Queues in the order of use, least recent first, with weights and a bound.

Using an entry moves it to the end.  Admitting one puts it there and drops as few
entries as possible from the front until the bound is kept (`trim`).  The entry
just admitted stays if it is within the bound on its own
(`trim_append_singleton`).
-/

namespace Recency

variable {ε κ : Type}

section

variable (weight : ε → Nat) (bound : Nat)

/-- The weight of a whole queue. -/
def total (queue : List ε) : Nat := (queue.map weight).sum

/-- The queue without its first entries, as few as bring it within the bound. -/
def trim : List ε → List ε
  | [] => []
  | e :: queue => if bound < total weight (e :: queue) then trim queue else e :: queue

end

variable {weight : ε → Nat} {bound : Nat}

@[simp] theorem total_nil : total weight [] = 0 := rfl

@[simp] theorem total_cons (e : ε) (queue : List ε) :
    total weight (e :: queue) = weight e + total weight queue := by
  rw [total, List.map_cons, List.sum_cons, total]

@[simp] theorem total_append (queue queue' : List ε) :
    total weight (queue ++ queue') = total weight queue + total weight queue' := by
  rw [total, List.map_append, List.sum_append, total, total]

theorem total_map {δ : Type} (f : δ → ε) (queue : List δ) :
    total weight (queue.map f) = total (weight ∘ f) queue := by
  rw [total, List.map_map, total]

theorem trim_map {δ : Type} (f : δ → ε) (queue : List δ) :
    trim weight bound (queue.map f) = (trim (weight ∘ f) bound queue).map f := by
  induction queue with
  | nil => rfl
  | cons e queue ih =>
    rw [List.map_cons, trim, trim, ← List.map_cons, total_map]
    split
    · exact ih
    · rfl

theorem trim_of_le {queue : List ε} (h : total weight queue ≤ bound) :
    trim weight bound queue = queue := by
  cases queue with
  | nil => rfl
  | cons e queue => rw [trim, if_neg (Nat.not_lt.mpr h)]

/-- **The shortest run.**  An entry that is within the bound stays behind the others, of
which as few as possible are dropped from the front. -/
theorem trim_append_singleton (queue : List ε) {last : ε} (h : weight last ≤ bound) :
    ∃ n, trim weight bound (queue ++ [last]) = queue.drop n ++ [last] ∧
      total weight (queue.drop n) + weight last ≤ bound ∧
      ∀ m < n, bound < total weight (queue.drop m) + weight last := by
  induction queue with
  | nil => exact ⟨0, trim_of_le (by simpa using h), by simpa using h, by simp⟩
  | cons e queue ih =>
    rw [List.cons_append, trim, ← List.cons_append, total_append]
    simp only [total_cons, total_nil, Nat.add_zero]
    split
    · next hlarge =>
      obtain ⟨n, htrim, hle, hshort⟩ := ih
      refine ⟨n + 1, htrim, hle, fun m hm => ?_⟩
      cases m with
      | zero => simpa using hlarge
      | succ m => exact hshort m (Nat.lt_of_succ_lt_succ hm)
    · next hlarge => exact ⟨0, rfl, by simpa using hlarge, by simp⟩

variable [DecidableEq κ]

/-- The queue without an entry. -/
def forget (k : κ) (queue : List (κ × ε)) : List (κ × ε) := queue.filter fun e => e.1 ≠ k

theorem mem_forget {k : κ} {queue : List (κ × ε)} {e : κ × ε} :
    e ∈ forget k queue ↔ e ∈ queue ∧ e.1 ≠ k := by
  simp [forget]

theorem forget_map {δ : Type} (f : δ → ε) (k : κ) (queue : List (κ × δ)) :
    forget k (queue.map fun e => (e.1, f e.2)) = (forget k queue).map fun e => (e.1, f e.2) := by
  rw [forget, List.filter_map]
  rfl

theorem forget_of_not_mem {k : κ} {queue : List (κ × ε)} (h : k ∉ queue.map Prod.fst) :
    forget k queue = queue := by
  refine List.filter_eq_self.mpr fun e he => ?_
  simpa using fun heq : e.1 = k => h (heq ▸ List.mem_map_of_mem he)

theorem forget_cons_self {e : κ × ε} {queue : List (κ × ε)} (h : e.1 ∉ queue.map Prod.fst) :
    forget e.1 (e :: queue) = queue := by
  rw [← forget_of_not_mem h]
  simp [forget]

/-- What an entry weighs goes with it. -/
theorem total_forget {weight : κ × ε → Nat} {queue : List (κ × ε)}
    (hnodup : (queue.map Prod.fst).Nodup) {e : κ × ε} (h : e ∈ queue) :
    total weight queue = weight e + total weight (forget e.1 queue) := by
  induction queue with
  | nil => cases h
  | cons f queue ih =>
    rw [List.map_cons, List.nodup_cons] at hnodup
    rcases List.mem_cons.mp h with rfl | h
    · rw [forget_cons_self hnodup.1, total_cons]
    · have hne : f.1 ≠ e.1 := fun heq => hnodup.1 (heq ▸ List.mem_map_of_mem h)
      have hrest : forget e.1 (f :: queue) = f :: forget e.1 queue := by
        simp [forget, hne]
      rw [hrest, total_cons, total_cons, ih hnodup.2 h]
      omega

theorem find_of_mem {queue : List (κ × ε)} (hnodup : (queue.map Prod.fst).Nodup) {e : κ × ε}
    (h : e ∈ queue) : (queue.find? fun f => f.1 == e.1) = some e := by
  induction queue with
  | nil => cases h
  | cons f queue ih =>
    rw [List.map_cons, List.nodup_cons] at hnodup
    rcases List.mem_cons.mp h with rfl | h
    · simp
    · have hne : f.1 ≠ e.1 := fun heq => hnodup.1 (heq ▸ List.mem_map_of_mem h)
      rw [List.find?_cons_of_neg (by simpa using hne), ih hnodup.2 h]

theorem find_of_not_mem {queue : List (κ × ε)} {k : κ} (h : k ∉ queue.map Prod.fst) :
    (queue.find? fun f => f.1 == k) = none := by
  rw [List.find?_eq_none]
  intro e he
  simpa using fun heq : e.1 = k => h (heq ▸ List.mem_map_of_mem he)

/-- A use of the queue. -/
inductive Use (κ : Type) where
  | touch (k : κ)
  | enqueue (k : κ) (weight : Nat)
  | forget (k : κ)

/-- What a use does with keys and their weights.  What is heavier than the bound is not
admitted. -/
def use (bound : Nat) (queue : List (κ × Nat)) : Use κ → List (κ × Nat)
  | .touch k =>
    match queue.find? fun e => e.1 == k with
    | some e => forget k queue ++ [e]
    | none => queue
  | .enqueue k weight =>
    if bound < weight then queue else trim Prod.snd bound (forget k queue ++ [(k, weight)])
  | .forget k => forget k queue

/-- The queue after several uses. -/
def uses (bound : Nat) (calls : List (Use κ)) : List (κ × Nat) := calls.foldl (use bound) []

end Recency
