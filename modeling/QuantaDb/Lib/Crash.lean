import Mathlib

/-!
# QuantaDb.Lib.Crash

Programs over a medium that can lose power between any two I/O calls.

A program takes a state to an `Outcome`: the medium as it stood after each
I/O call, the state it ends in, and a value or an error.  State changes made
before an error stay, as they do behind a mutable reference.  The media in
`during` are the points at which the power can fail.

`Meets P m Q E C` is the triple of this setting: from a state in `P`, every
medium the program passes through satisfies the crash condition `C`, a
returned value satisfies `Q`, and a raised error satisfies `E`.
-/

namespace Crash

/-- What running a program leaves behind. -/
structure Outcome (δ σ ε α : Type) where
  /-- The medium after each I/O call, oldest first. -/
  during : List δ
  state : σ
  result : Except ε α

/-- A program over states `σ` and a medium `δ`, failing with `ε`. -/
def Prog (δ σ ε α : Type) : Type := σ → Outcome δ σ ε α

namespace Prog

variable {δ σ ε α β : Type}

instance : Monad (Prog δ σ ε) where
  pure a := fun s => ⟨[], s, .ok a⟩
  bind m f := fun s =>
    match (m s).result with
    | .error e => ⟨(m s).during, (m s).state, .error e⟩
    | .ok a =>
      let o := f a (m s).state
      ⟨(m s).during ++ o.during, o.state, o.result⟩

/-- Stop with an error. -/
def fail (e : ε) : Prog δ σ ε α := fun s => ⟨[], s, .error e⟩

/-- Look at the state. -/
def read (f : σ → α) : Prog δ σ ε α := fun s => ⟨[], s, .ok (f s)⟩

/-- Change the state in memory. -/
def update (f : σ → σ) : Prog δ σ ε Unit := fun s => ⟨[], f s, .ok ()⟩

/-- Issue one I/O call: the state changes and so does the medium under it. -/
def issue (medium : σ → δ) (f : σ → σ) : Prog δ σ ε Unit := fun s => ⟨[medium (f s)], f s, .ok ()⟩

/-- Use a value or an error computed from the state. -/
def attempt (f : σ → Except ε α) : Prog δ σ ε α := fun s => ⟨[], s, f s⟩

/-- Run a program if the condition holds. -/
def when (c : Bool) (m : Prog δ σ ε Unit) : Prog δ σ ε Unit := if c then m else pure ()

/-- Run a program on each element in turn and collect the results. -/
def forEach : List α → (α → Prog δ σ ε β) → Prog δ σ ε (List β)
  | [], _ => pure []
  | a :: as, f => do
      let b ← f a
      let bs ← forEach as f
      pure (b :: bs)

theorem forEach_map {γ : Type} (as : List α) (g : α → β) (f : β → Prog δ σ ε γ) :
    forEach (as.map g) f = forEach as fun a => f (g a) := by
  induction as with
  | nil => rfl
  | cons a as ih => simp only [List.map_cons, forEach, ih]

theorem pure_run (a : α) (s : σ) : (pure a : Prog δ σ ε α) s = ⟨[], s, .ok a⟩ := rfl

theorem bind_run_ok {m : Prog δ σ ε α} {f : α → Prog δ σ ε β} {s : σ} {a : α}
    (h : (m s).result = .ok a) :
    (m >>= f) s = ⟨(m s).during ++ (f a (m s).state).during, (f a (m s).state).state,
      (f a (m s).state).result⟩ := by
  simp only [bind, h]

theorem bind_run_error {m : Prog δ σ ε α} {f : α → Prog δ σ ε β} {s : σ} {e : ε}
    (h : (m s).result = .error e) :
    (m >>= f) s = ⟨(m s).during, (m s).state, .error e⟩ := by
  simp only [bind, h]

end Prog

open Prog

section

variable {δ σ ε α β : Type}

/-! ## runs that return -/

/-- The program returns `a` and leaves `s'`. -/
def Ran (m : Prog δ σ ε α) (s : σ) (a : α) (s' : σ) : Prop :=
  (m s).result = .ok a ∧ (m s).state = s'

section

variable {m : Prog δ σ ε α} {f : α → Prog δ σ ε β} {s s' : σ} {a a' : α} {b : β}

@[simp] theorem ran_pure : Ran (pure a : Prog δ σ ε α) s a' s' ↔ a' = a ∧ s' = s := by
  simp [Ran, pure_run, eq_comm]

@[simp] theorem ran_fail {e : ε} : ¬Ran (fail e : Prog δ σ ε α) s a s' := by
  simp [Ran, Prog.fail]

@[simp] theorem ran_read {g : σ → α} :
    Ran (read g : Prog δ σ ε α) s a s' ↔ a = g s ∧ s' = s := by
  simp [Ran, Prog.read, eq_comm]

@[simp] theorem ran_update {g : σ → σ} {u : Unit} :
    Ran (update g : Prog δ σ ε Unit) s u s' ↔ s' = g s := by
  simp [Ran, Prog.update, eq_comm]

@[simp] theorem ran_issue {medium : σ → δ} {g : σ → σ} {u : Unit} :
    Ran (issue medium g : Prog δ σ ε Unit) s u s' ↔ s' = g s := by
  simp [Ran, Prog.issue, eq_comm]

@[simp] theorem ran_attempt {g : σ → Except ε α} :
    Ran (attempt g : Prog δ σ ε α) s a s' ↔ g s = .ok a ∧ s' = s := by
  simp [Ran, Prog.attempt, eq_comm]

/-- A sequence that returns ran both its parts. -/
@[simp] theorem ran_bind :
    Ran (m >>= f) s b s' ↔ ∃ a s₁, Ran m s a s₁ ∧ Ran (f a) s₁ b s' := by
  cases hr : (m s).result with
  | error e => simp [Ran, bind_run_error hr, hr]
  | ok a => simp [Ran, bind_run_ok hr, hr]

theorem ran_ite {c : Prop} [Decidable c] {m₁ m₂ : Prog δ σ ε α} :
    Ran (if c then m₁ else m₂) s a s' ↔ (c ∧ Ran m₁ s a s') ∨ (¬c ∧ Ran m₂ s a s') := by
  by_cases hc : c <;> simp [hc]

theorem ran_when {c : Bool} {m : Prog δ σ ε Unit} {u : Unit} :
    Ran (Prog.when c m) s u s' ↔ (c = true ∧ Ran m s u s') ∨ (c = false ∧ s' = s) := by
  cases c <;> simp [Prog.when]

@[simp] theorem ran_forEach_nil {bs : List β} :
    Ran (forEach [] f) s bs s' ↔ bs = [] ∧ s' = s := ran_pure

theorem ran_forEach_cons {as : List α} {bs : List β} :
    Ran (forEach (a :: as) f) s bs s' ↔
      ∃ b s₁ bs', Ran (f a) s b s₁ ∧ Ran (forEach as f) s₁ bs' s' ∧ bs = b :: bs' := by
  simp only [forEach, ran_bind, ran_pure]
  constructor
  · rintro ⟨b, s₁, hb, bs', s₂, hbs, rfl, rfl⟩
    exact ⟨b, s₁, bs', hb, hbs, rfl⟩
  · rintro ⟨b, s₁, bs', hb, hbs, rfl⟩
    exact ⟨b, s₁, hb, bs', s', hbs, rfl, rfl⟩

end

/-- From `P`, every medium passed through satisfies `C`, a value satisfies `Q`
and an error satisfies `E`. -/
def Meets (P : σ → Prop) (m : Prog δ σ ε α) (Q : α → σ → Prop) (E : ε → σ → Prop)
    (C : δ → Prop) : Prop :=
  ∀ s, P s → (∀ d ∈ (m s).during, C d) ∧
    (∀ a, (m s).result = .ok a → Q a (m s).state) ∧
    (∀ e, (m s).result = .error e → E e (m s).state)

variable {P P' : σ → Prop} {Q Q' : α → σ → Prop} {R : β → σ → Prop} {E E' : ε → σ → Prop}
variable {C C' : δ → Prop} {m : Prog δ σ ε α} {f : α → Prog δ σ ε β}

theorem Meets.during (h : Meets P m Q E C) {s : σ} (hs : P s) {d : δ} (hd : d ∈ (m s).during) :
    C d :=
  (h s hs).1 d hd

theorem Meets.ok (h : Meets P m Q E C) {s : σ} (hs : P s) {a : α} (ha : (m s).result = .ok a) :
    Q a (m s).state :=
  (h s hs).2.1 a ha

theorem Meets.error (h : Meets P m Q E C) {s : σ} (hs : P s) {e : ε}
    (he : (m s).result = .error e) : E e (m s).state :=
  (h s hs).2.2 e he

/-- A program that raises no error returns a value. -/
theorem Meets.returns (h : Meets P m Q (fun _ _ => False) C) {s : σ} (hs : P s) :
    ∃ a, (m s).result = .ok a ∧ Q a (m s).state := by
  cases hr : (m s).result with
  | error e => exact (h.error hs hr).elim
  | ok a => exact ⟨a, rfl, h.ok hs hr⟩

/-- The rule of consequence. -/
theorem Meets.conseq (h : Meets P m Q E C) (hP : ∀ s, P' s → P s) (hQ : ∀ a s, Q a s → Q' a s)
    (hE : ∀ e s, E e s → E' e s) (hC : ∀ d, C d → C' d) : Meets P' m Q' E' C' := fun s hs =>
  ⟨fun d hd => hC d (h.during (hP s hs) hd), fun a ha => hQ a _ (h.ok (hP s hs) ha),
    fun e he => hE e _ (h.error (hP s hs) he)⟩

theorem Meets.pre (h : Meets P m Q E C) (hP : ∀ s, P' s → P s) : Meets P' m Q E C :=
  h.conseq hP (fun _ _ => id) (fun _ _ => id) (fun _ => id)

theorem Meets.post (h : Meets P m Q E C) (hQ : ∀ a s, Q a s → Q' a s) : Meets P m Q' E C :=
  h.conseq (fun _ => id) hQ (fun _ _ => id) (fun _ => id)

/-- A witness of the starting state may be fixed. -/
theorem Meets.exists_pre {ι : Type} {P : ι → σ → Prop} (h : ∀ i, Meets (P i) m Q E C) :
    Meets (fun s => ∃ i, P i s) m Q E C := fun s ⟨i, hs⟩ => h i s hs

/-- The starting state may be fixed. -/
theorem Meets.of_state (h : ∀ s, P s → Meets (fun s' => s' = s) m Q E C) : Meets P m Q E C :=
  fun s hs => h s hs s rfl

/-- A fact about the starting state may be used as a hypothesis. -/
theorem Meets.assuming {p : Prop} (hp : ∀ s, P s → p) (h : p → Meets P m Q E C) :
    Meets P m Q E C := fun s hs => h (hp s hs) s hs

theorem Meets.pure {a : α} (h : ∀ s, P s → Q a s) : Meets P (pure a : Prog δ σ ε α) Q E C :=
  fun s hs => ⟨by simp [pure_run], fun b hb => by cases hb; exact h s hs, fun e he => by cases he⟩

theorem Meets.fail {e : ε} (h : ∀ s, P s → E e s) : Meets P (fail e : Prog δ σ ε α) Q E C :=
  fun s hs => ⟨by simp [Prog.fail], fun b hb => (by cases hb),
    fun e he => by cases he; exact h s hs⟩

theorem Meets.read {g : σ → α} (h : ∀ s, P s → Q (g s) s) :
    Meets P (read g : Prog δ σ ε α) Q E C :=
  fun s hs => ⟨by simp [Prog.read], fun b hb => by cases hb; exact h s hs, fun e he => by cases he⟩

theorem Meets.update {g : σ → σ} {Q : Unit → σ → Prop} (h : ∀ s, P s → Q () (g s)) :
    Meets P (update g : Prog δ σ ε Unit) Q E C :=
  fun s hs => ⟨by simp [Prog.update], fun b _ => h s hs, fun e he => by cases he⟩

theorem Meets.issue {medium : σ → δ} {g : σ → σ} {Q : Unit → σ → Prop}
    (h : ∀ s, P s → C (medium (g s)) ∧ Q () (g s)) :
    Meets P (issue medium g : Prog δ σ ε Unit) Q E C :=
  fun s hs => ⟨fun d hd => by
    simp only [Prog.issue, List.mem_singleton] at hd
    exact hd ▸ (h s hs).1, fun b _ => (h s hs).2, fun e he => by cases he⟩

theorem Meets.attempt {g : σ → Except ε α} (h : ∀ s, P s → ∀ a, g s = .ok a → Q a s)
    (he : ∀ s, P s → ∀ e, g s = .error e → E e s) :
    Meets P (attempt g : Prog δ σ ε α) Q E C :=
  fun s hs => ⟨by simp [Prog.attempt], fun b hb => h s hs b hb, fun e hr => he s hs e hr⟩

/-- The sequencing rule. -/
theorem Meets.bind (hm : Meets P m Q E C) (hf : ∀ a, Meets (Q a) (f a) R E C) :
    Meets P (m >>= f) R E C := by
  intro s hs
  cases hr : (m s).result with
  | error e =>
    rw [bind_run_error hr]
    exact ⟨fun d hd => hm.during hs hd, fun b hb => (by cases hb),
      fun e' he' => by cases he'; exact hm.error hs hr⟩
  | ok a =>
    have hQ := hm.ok hs hr
    rw [bind_run_ok hr]
    refine ⟨fun d hd => ?_, fun b hb => (hf a).ok hQ hb, fun e he => (hf a).error hQ he⟩
    rcases List.mem_append.mp hd with hd | hd
    · exact hm.during hs hd
    · exact (hf a).during hQ hd

theorem Meets.ite {c : Prop} [Decidable c] {m₁ m₂ : Prog δ σ ε α}
    (ht : c → Meets P m₁ Q E C) (hf : ¬ c → Meets P m₂ Q E C) :
    Meets P (if c then m₁ else m₂) Q E C := by
  by_cases hc : c
  · rw [if_pos hc]; exact ht hc
  · rw [if_neg hc]; exact hf hc

theorem Meets.when {c : Bool} {m : Prog δ σ ε Unit} {Q : Unit → σ → Prop}
    (ht : c = true → Meets P m Q E C) (hf : c = false → ∀ s, P s → Q () s) :
    Meets P (Prog.when c m) Q E C :=
  Meets.ite ht fun hc => Meets.pure (hf (by simpa using hc))

/-- The loop rule: `I done bs` holds with `done` processed and `bs` collected. -/
theorem Meets.forEach {l : List α} {I : List α → List β → σ → Prop}
    (h : ∀ done a rest bs, l = done ++ a :: rest →
      Meets (I done bs) (f a) (fun b => I (done ++ [a]) (bs ++ [b])) E C) :
    Meets (I [] []) (forEach l f) (fun bs => I l bs) E C := by
  suffices aux : ∀ todo done bs, l = done ++ todo →
      Meets (I done bs) (Prog.forEach todo f) (fun bs' => I l (bs ++ bs')) E C by
    simpa using aux l [] [] rfl
  intro todo
  induction todo with
  | nil =>
    intro done bs hl
    rw [List.append_nil] at hl
    subst hl
    exact Meets.pure fun s hs => by simpa using hs
  | cons a todo ih =>
    intro done bs hl
    refine Meets.bind (h done a todo bs hl) fun b => ?_
    refine Meets.bind (ih (done ++ [a]) (bs ++ [b]) (by simp [hl])) fun bs' => ?_
    exact Meets.pure fun s hs => by simpa using hs

end

end Crash
