import Mathlib.Logic.Basic

/-!
# Runs of a state machine

A machine takes a state and a request to the next state, and a run is a list of
requests. A condition on requests may depend on the state the request arrives in;
`EachStep` says that it holds all along a run.

## Main definitions

* `Lib.EachStep` — a condition on every step of a run

## Main results

* `EachStep.invariant` — what each step preserves holds after the run
-/

namespace Rspacefs.Lib

variable {σ ρ : Type} {next : σ → ρ → σ} {C C' : σ → ρ → Prop} {I : σ → Prop} {s : σ}
  {rs rs' : List ρ}

/-- The condition holds of every request, in the state it arrives in. -/
def EachStep (next : σ → ρ → σ) (C : σ → ρ → Prop) : σ → List ρ → Prop
  | _, [] => True
  | s, r :: rs => C s r ∧ EachStep next C (next s r) rs

instance EachStep.decidable (next : σ → ρ → σ) (C : σ → ρ → Prop) [∀ s r, Decidable (C s r)] :
    ∀ s rs, Decidable (EachStep next C s rs)
  | _, [] => isTrue True.intro
  | s, r :: rs =>
    have := EachStep.decidable next C (next s r) rs
    inferInstanceAs (Decidable (C s r ∧ EachStep next C (next s r) rs))

/-- What each step preserves holds after the run. -/
theorem EachStep.invariant (h : EachStep next C s rs)
    (hstep : ∀ s r, I s → C s r → I (next s r)) (hs : I s) : I (rs.foldl next s) := by
  induction rs generalizing s with
  | nil => exact hs
  | cons r rs ih => exact ih h.2 (hstep s r hs h.1)

theorem EachStep.mono (h : EachStep next C s rs) (hC : ∀ s r, C s r → C' s r) :
    EachStep next C' s rs := by
  induction rs generalizing s with
  | nil => trivial
  | cons r rs ih => exact ⟨hC s r h.1, ih h.2⟩

theorem EachStep.and (h : EachStep next C s rs) (h' : EachStep next C' s rs) :
    EachStep next (fun s r => C s r ∧ C' s r) s rs := by
  induction rs generalizing s with
  | nil => trivial
  | cons r rs ih => exact ⟨⟨h.1, h'.1⟩, ih h.2 h'.2⟩

theorem EachStep.trivial (hC : ∀ s r, C s r) : EachStep next C s rs := by
  induction rs generalizing s with
  | nil => exact True.intro
  | cons r rs ih => exact ⟨hC s r, ih⟩

/-- A condition on the requests alone. -/
theorem EachStep.of_forall {D : ρ → Prop} (h : ∀ r ∈ rs, D r) :
    EachStep next (fun _ r => D r) s rs := by
  induction rs generalizing s with
  | nil => exact True.intro
  | cons r rs ih => exact ⟨h r (by simp), ih fun r' hr' => h r' (by simp [hr'])⟩

/-- A condition holds along two runs in sequence when it holds along each. -/
theorem eachStep_append : EachStep next C s (rs ++ rs') ↔
    EachStep next C s rs ∧ EachStep next C (rs.foldl next s) rs' := by
  induction rs generalizing s with
  | nil => simp [EachStep]
  | cons r rs ih => simp [EachStep, ih, and_assoc]

end Rspacefs.Lib
