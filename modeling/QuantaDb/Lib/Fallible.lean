import Mathlib

/-!
# QuantaDb.Lib.Fallible

Computations in `Except` that returned: what each step of them returned.
-/

namespace Fallible

variable {ε α β : Type}

/-- A sequence that returned ran both its steps. -/
theorem bind_eq_ok {x : Except ε α} {f : α → Except ε β} {b : β} :
    (x >>= f) = .ok b ↔ ∃ a, x = .ok a ∧ f a = .ok b := by
  cases x <;> simp [bind, Except.bind]

/-- A sequence that failed did so in one of its steps. -/
theorem bind_eq_error {x : Except ε α} {f : α → Except ε β} {e : ε} :
    (x >>= f) = .error e ↔ x = .error e ∨ ∃ a, x = .ok a ∧ f a = .error e := by
  cases x <;> simp [bind, Except.bind]

theorem map_eq_ok {x : Except ε α} {f : α → β} {b : β} :
    x.map f = .ok b ↔ ∃ a, x = .ok a ∧ f a = b := by
  cases x <;> simp [Except.map]

theorem mapError_eq_ok {ε' : Type} {x : Except ε α} {f : ε → ε'} {a : α} :
    x.mapError f = .ok a ↔ x = .ok a := by
  cases x <;> simp [Except.mapError]

theorem ite_error_eq_ok {p : Prop} [Decidable p] {e : ε} {x : Except ε α} {a : α} :
    (if p then .error e else x) = .ok a ↔ ¬p ∧ x = .ok a := by
  by_cases hp : p <;> simp [hp]

theorem exists_of_isOk {x : Except ε α} (h : x.isOk = true) : ∃ a, x = .ok a := by
  cases x with
  | error e => cases h
  | ok a => exact ⟨a, rfl⟩

/-- A loop all of whose turns return. -/
theorem mapM_eq_map {f : α → Except ε β} {g : α → β} {xs : List α}
    (h : ∀ x ∈ xs, f x = .ok (g x)) : xs.mapM f = .ok (xs.map g) := by
  induction xs with
  | nil => rfl
  | cons x xs ih =>
    rw [List.forall_mem_cons] at h
    rw [List.mapM_cons, h.1, ih h.2]
    rfl

/-- A loop of checks that returned. -/
theorem forM_eq_ok {f : α → Except ε Unit} {xs : List α} :
    xs.forM f = .ok () ↔ ∀ x ∈ xs, f x = .ok () := by
  induction xs with
  | nil => simp [pure, Except.pure]
  | cons x xs ih =>
    rw [List.forall_mem_cons, ← ih, List.forM, bind_eq_ok]
    exact ⟨fun h => h.elim fun _ h => h, fun h => ⟨(), h⟩⟩

/-- What each turn of a loop returned. -/
theorem mapM_eq_ok {f : α → Except ε β} {xs : List α} {ys : List β} :
    xs.mapM f = .ok ys ↔ List.Forall₂ (fun x y => f x = .ok y) xs ys := by
  induction xs generalizing ys with
  | nil => simp [pure, Except.pure, eq_comm]
  | cons x xs ih =>
    rw [List.mapM_cons, List.forall₂_cons_left_iff, bind_eq_ok]
    simp only [bind_eq_ok, ih, pure, Except.pure, Except.ok.injEq]
    constructor
    · rintro ⟨y, hy, ys', hys, rfl⟩
      exact ⟨y, ys', hy, hys, rfl⟩
    · rintro ⟨y, ys', hy, hys, rfl⟩
      exact ⟨y, hy, ys', hys, rfl⟩

/-- A loop returns if each of its turns does. -/
theorem exists_mapM_eq_ok {f : α → Except ε β} {xs : List α} :
    (∃ ys, xs.mapM f = .ok ys) ↔ ∀ x ∈ xs, ∃ y, f x = .ok y := by
  induction xs with
  | nil => simp [pure, Except.pure]
  | cons x xs ih =>
    rw [List.forall_mem_cons, ← ih, List.mapM_cons]
    simp only [bind_eq_ok, pure, Except.pure, Except.ok.injEq]
    constructor
    · rintro ⟨_, y, hy, ys, hys, -⟩
      exact ⟨⟨y, hy⟩, ys, hys⟩
    · rintro ⟨⟨y, hy⟩, ys, hys⟩
      exact ⟨_, y, hy, ys, hys, rfl⟩

/-- A loop that returned kept what each of its turns keeps. -/
theorem foldlM_keeps {f : β → α → Except ε β} {P : β → Prop} {xs : List α} {b b' : β}
    (h : xs.foldlM f b = .ok b') (hb : P b)
    (hstep : ∀ x ∈ xs, ∀ b b', P b → f b x = .ok b' → P b') : P b' := by
  induction xs generalizing b with
  | nil => cases h; exact hb
  | cons x xs ih =>
    rw [List.foldlM_cons, bind_eq_ok] at h
    obtain ⟨b₁, hx, h⟩ := h
    exact ih h (hstep x List.mem_cons_self b b₁ hb hx) fun y hy =>
      hstep y (List.mem_cons_of_mem x hy)

/-- The same with the elements that are done. -/
theorem foldlM_invariant {f : β → α → Except ε β} {I : List α → β → Prop} {xs : List α} {b b' : β}
    (h : xs.foldlM f b = .ok b') (hb : I [] b)
    (hstep : ∀ done x c c', I done c → f c x = .ok c' → I (done ++ [x]) c') : I xs b' := by
  suffices aux : ∀ (todo done : List α) (c : β), I done c → todo.foldlM f c = .ok b' →
      I (done ++ todo) b' from aux xs [] b hb h
  intro todo
  induction todo with
  | nil =>
    intro done c hc hrest
    cases hrest
    rwa [List.append_nil]
  | cons x todo ih =>
    intro done c hc hrest
    rw [List.foldlM_cons, bind_eq_ok] at hrest
    obtain ⟨c₁, hx, hrest⟩ := hrest
    have hdone := ih (done ++ [x]) c₁ (hstep done x c c₁ hc hx) hrest
    rwa [List.append_assoc, List.singleton_append] at hdone

/-- A loop that returned did what its turns do when they return. -/
theorem foldlM_eq_foldl {f : β → α → Except ε β} {g : β → α → β} {xs : List α} {b b' : β}
    (h : xs.foldlM f b = .ok b') (hstep : ∀ x ∈ xs, ∀ b b', f b x = .ok b' → b' = g b x) :
    b' = xs.foldl g b := by
  induction xs generalizing b with
  | nil => cases h; rfl
  | cons x xs ih =>
    rw [List.foldlM_cons, bind_eq_ok] at h
    obtain ⟨b₁, hx, h⟩ := h
    rw [List.foldl_cons, ← hstep x List.mem_cons_self b b₁ hx]
    exact ih h fun y hy => hstep y (List.mem_cons_of_mem x hy)

/-- A loop returns if each of its turns does, from wherever it is. -/
theorem exists_foldlM_eq_ok {f : β → α → Except ε β} {xs : List α} (b : β)
    (hstep : ∀ x ∈ xs, ∀ b, ∃ b', f b x = .ok b') : ∃ b', xs.foldlM f b = .ok b' := by
  induction xs generalizing b with
  | nil => exact ⟨b, rfl⟩
  | cons x xs ih =>
    obtain ⟨b₁, hx⟩ := hstep x List.mem_cons_self b
    obtain ⟨b', hrest⟩ := ih b₁ fun y hy => hstep y (List.mem_cons_of_mem x hy)
    exact ⟨b', by rw [List.foldlM_cons, bind_eq_ok]; exact ⟨b₁, hx, hrest⟩⟩

/-- Where a loop returned, each of its turns did, from wherever it was. -/
theorem exists_of_mem_foldlM {f : β → α → Except ε β} {xs : List α} {b b' : β} {x : α}
    (h : xs.foldlM f b = .ok b') (hx : x ∈ xs) : ∃ c c', f c x = .ok c' := by
  induction xs generalizing b with
  | nil => cases hx
  | cons y ys ih =>
    rw [List.foldlM_cons, bind_eq_ok] at h
    obtain ⟨b₁, hy, h⟩ := h
    rcases List.mem_cons.mp hx with rfl | hx
    · exact ⟨b, b₁, hy⟩
    · exact ih h hx

/-- A computation that fails in allowed ways only. -/
def FailsOnly (allowed : ε → Prop) (x : Except ε α) : Prop := ∀ e, x = .error e → allowed e

variable {allowed : ε → Prop}

theorem FailsOnly.ok (a : α) : FailsOnly allowed (.ok a : Except ε α) := nofun

theorem FailsOnly.bind {x : Except ε α} {f : α → Except ε β} (hx : FailsOnly allowed x)
    (hf : ∀ a, x = .ok a → FailsOnly allowed (f a)) : FailsOnly allowed (x >>= f) := by
  cases x with
  | error e =>
    intro e' he'
    obtain rfl := Except.error.inj he'
    exact hx e rfl
  | ok a => exact hf a rfl

theorem FailsOnly.map {x : Except ε α} {f : α → β} (hx : FailsOnly allowed x) :
    FailsOnly allowed (x.map f) := by
  cases x with
  | error e =>
    intro e' he'
    obtain rfl := Except.error.inj he'
    exact hx e rfl
  | ok a => exact .ok _

theorem FailsOnly.mapM {f : α → Except ε β} {xs : List α} (hf : ∀ x ∈ xs, FailsOnly allowed (f x)) :
    FailsOnly allowed (xs.mapM f) := by
  induction xs with
  | nil => exact .ok _
  | cons x xs ih =>
    rw [List.forall_mem_cons] at hf
    rw [List.mapM_cons]
    exact hf.1.bind fun _ _ => (ih hf.2).bind fun _ _ => .ok _

/-- A computation whose results all have a property. -/
def Ensures (P : α → Prop) (x : Except ε α) : Prop := ∀ a, x = .ok a → P a

namespace Ensures

variable {P : α → Prop} {Q : β → Prop}

theorem ok {a : α} (h : P a) : Ensures P (.ok a : Except ε α) := by
  intro b hb
  exact Except.ok.inj hb ▸ h

theorem error {e : ε} : Ensures P (.error e : Except ε α) := fun _ h => by cases h

theorem mono {P' : α → Prop} {x : Except ε α} (hx : Ensures P x) (h : ∀ a, P a → P' a) :
    Ensures P' x := fun a ha => h a (hx a ha)

/-- What the first step ensures, the next one starts from. -/
theorem bind {x : Except ε α} {f : α → Except ε β} (hx : Ensures P x)
    (hf : ∀ a, P a → Ensures Q (f a)) : Ensures Q (x >>= f) := by
  intro b hb
  obtain ⟨a, ha, hb⟩ := bind_eq_ok.mp hb
  exact hf a (hx a ha) b hb

/-- A first step of which nothing is needed. -/
theorem skip {x : Except ε α} {f : α → Except ε β} (hf : ∀ a, Ensures Q (f a)) :
    Ensures Q (x >>= f) :=
  bind (P := fun _ => True) (fun _ _ => trivial) fun a _ => hf a

/-- A loop ensures what each turn keeps. -/
theorem foldlM {f : β → α → Except ε β} {xs : List α} {b : β} (hb : Q b)
    (hstep : ∀ b x, Q b → Ensures Q (f b x)) : Ensures Q (xs.foldlM f b) := fun _ h =>
  foldlM_keeps h hb fun x _ b b' hb => hstep b x hb b'

end Ensures

end Fallible
