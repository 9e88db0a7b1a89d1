import Rspacefs.Lib.Run

/-!
# Runs of a specification and of a machine

A specification says which steps are allowed, as a relation; a machine takes every step, as a
function. Where each allowed step of the specification is matched by the machine, so is each
allowed run.

## Main definitions

* `Lib.Steps` — a run of a transition relation

## Main results

* `Steps.simulate` — a machine that matches every step matches every run
-/

namespace Rspacefs.Lib

variable {σ τ ρ : Type}

/-- The labels lead from one state to the other. -/
inductive Steps (R : σ → ρ → σ → Prop) : σ → List ρ → σ → Prop
  | nil (s : σ) : Steps R s [] s
  | cons {s s₁ s' : σ} {r : ρ} {rs : List ρ} (step : R s r s₁) (rest : Steps R s₁ rs s') :
      Steps R s (r :: rs) s'

namespace Steps

variable {R : σ → ρ → σ → Prop} {next : τ → ρ → τ} {C Ok : τ → ρ → Prop} {Rel : σ → τ → Prop}
  {s s' : σ} {t : τ} {rs : List ρ}

/-- A machine that matches every step that its condition admits matches every run. -/
theorem simulate (hstep : ∀ s t r s₁, Rel s t → C t r → R s r s₁ → Ok t r ∧ Rel s₁ (next t r))
    (hrun : Steps R s rs s') (hC : EachStep next C t rs) (hrel : Rel s t) :
    EachStep next Ok t rs ∧ Rel s' (rs.foldl next t) := by
  induction hrun generalizing t with
  | nil => exact ⟨True.intro, hrel⟩
  | cons hR _ ih =>
    obtain ⟨hok, hrel₁⟩ := hstep _ t _ _ hrel hC.1 hR
    obtain ⟨hrest, hend⟩ := ih hC.2 hrel₁
    exact ⟨⟨hok, hrest⟩, hend⟩

end Steps

end Rspacefs.Lib
