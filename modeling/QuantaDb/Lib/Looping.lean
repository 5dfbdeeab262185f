import Mathlib

/-!
# QuantaDb.Lib.Looping

Loops without a bound.

A loop is given by what one turn does with its state: it goes on or it is left.
A turn also notes down what it does on the way, such as the pages it asks for.
`Returns` says that the loop is left, with what and with which notes; it has a
finite derivation, so a loop that never ends returns nothing.  What every turn
keeps holds at the end (`Returns.invariant`).
-/

namespace Looping

variable {ρ σ α : Type}

/-- What a turn does, and what it notes down on the way. -/
inductive Turn (ρ σ α : Type) where
  | next (noted : List ρ) (state : σ)
  | done (noted : List ρ) (result : α)

/-- The loop is left with this result and these notes, in this order. -/
inductive Returns (turn : σ → Turn ρ σ α) : σ → List ρ → α → Prop
  | done {s : σ} {noted : List ρ} {a : α} : turn s = .done noted a → Returns turn s noted a
  | next {s s' : σ} {noted later : List ρ} {a : α} : turn s = .next noted s' →
      Returns turn s' later a → Returns turn s (noted ++ later) a

variable {turn : σ → Turn ρ σ α}

/-- The loop ends, whatever it notes. -/
def Ends (turn : σ → Turn ρ σ α) (s : σ) (a : α) : Prop := ∃ noted, Returns turn s noted a

theorem Ends.done {s : σ} {noted : List ρ} {a : α} (h : turn s = .done noted a) : Ends turn s a :=
  ⟨noted, .done h⟩

theorem Ends.next {s s' : σ} {noted : List ρ} {a : α} (h : turn s = .next noted s')
    (hend : Ends turn s' a) : Ends turn s a :=
  hend.elim fun later hreturns => ⟨noted ++ later, .next h hreturns⟩

/-- A loop with a value that its turns keep, and a measure that they lower, ends with the
value. -/
theorem Ends.of_measure {value : σ → α} (measure : σ → Nat)
    (hdone : ∀ {s noted a}, turn s = .done noted a → value s = a)
    (hnext : ∀ {s noted s'}, turn s = .next noted s' → value s = value s' ∧ measure s' < measure s)
    (s : σ) : Ends turn s (value s) := by
  induction hm : measure s using Nat.strong_induction_on generalizing s with
  | _ m ih =>
    cases hturn : turn s with
    | done noted a =>
      rw [hdone hturn]
      exact .done hturn
    | next noted s' =>
      obtain ⟨hvalue, hlt⟩ := hnext hturn
      rw [hvalue]
      exact .next hturn (ih _ (hm ▸ hlt) s' rfl)

/-- A loop has one result. -/
theorem Returns.unique {s : σ} {noted noted' : List ρ} {a a' : α} (h : Returns turn s noted a)
    (h' : Returns turn s noted' a') : noted = noted' ∧ a = a' := by
  induction h generalizing noted' with
  | done hturn =>
    cases h' with
    | done hturn' =>
      rw [hturn] at hturn'
      cases hturn'
      exact ⟨rfl, rfl⟩
    | next hturn' _ =>
      rw [hturn] at hturn'
      cases hturn'
  | next hturn _ ih =>
    cases h' with
    | done hturn' =>
      rw [hturn] at hturn'
      cases hturn'
    | next hturn' hrest =>
      rw [hturn] at hturn'
      cases hturn'
      obtain ⟨rfl, rfl⟩ := ih hrest
      exact ⟨rfl, rfl⟩

theorem Ends.unique {s : σ} {a a' : α} (h : Ends turn s a) (h' : Ends turn s a') : a = a' := by
  obtain ⟨_, h⟩ := h
  obtain ⟨_, h'⟩ := h'
  exact (h.unique h').2

/-- **Invariants.**  What holds at the start and is kept by every turn, of the state and
of all that was noted, gives what holds at the end. -/
theorem Returns.invariant {I : σ → List ρ → Prop} {Post : List ρ → α → Prop}
    (hnext : ∀ {s s' noted before}, I s before → turn s = .next noted s' → I s' (before ++ noted))
    (hdone : ∀ {s noted before a}, I s before → turn s = .done noted a → Post (before ++ noted) a)
    {s : σ} {noted before : List ρ} {a : α} (h : Returns turn s noted a) (hs : I s before) :
    Post (before ++ noted) a := by
  induction h generalizing before with
  | done hturn => exact hdone hs hturn
  | next hturn _ ih =>
    rw [← List.append_assoc]
    exact ih (hnext hs hturn)

end Looping
