import Rspacefs.Lib.EState

/-!
# One program doing what another does

A state may be embedded in a larger one. A program on the larger state follows one on the
smaller state, from an embedded state, if it returns when the other returns, with a value
in a given relation to its value, fails when it fails with the same error, and ends in the
embedding of the state the other ends in.

## Main definitions

* `Lib.Follows` — a program on the larger state follows one on the smaller state
* `Lib.Commutes` — a program follows itself through a change of the state

## Main results

* `Follows.pure`, `Follows.bind`, `Follows.ask`, `Follows.onPart`, … — one rule per way of
  building the two programs
-/

namespace Rspacefs.Lib

variable {ε σ τ α β γ δ : Type} {embed : τ → σ} {R : α → β → Prop} {S : γ → δ → Prop}
  {x : EStateM ε σ α} {y : EStateM ε τ β} {k : α → EStateM ε σ γ} {l : β → EStateM ε τ δ} {t : τ}

/-- Started in the embedding of `t`, the program `x` ends as `y` ends when started in `t`. -/
def Follows (embed : τ → σ) (R : α → β → Prop) (x : EStateM ε σ α) (y : EStateM ε τ β)
    (t : τ) : Prop :=
  match y.run t with
  | .ok b t' => ∃ a, x.run (embed t) = .ok a (embed t') ∧ R a b
  | .error e t' => x.run (embed t) = .error e (embed t')

namespace Follows

theorem pure {a : α} {b : β} (h : R a b) :
    Follows embed R (Pure.pure a : EStateM ε σ α) (Pure.pure b) t :=
  ⟨a, rfl, h⟩

theorem bind (hx : Follows embed R x y t)
    (hk : ∀ a b t', y.run t = .ok b t' → R a b → Follows embed S (k a) (l b) t') :
    Follows embed S (x >>= k) (y >>= l) t := by
  unfold Follows at hx ⊢
  rw [EStateM.run_bind, EStateM.run_bind]
  cases hy : y.run t with
  | error e t' =>
    rw [hy] at hx
    simp only at hx ⊢
    rw [hx]
  | ok b t' =>
    rw [hy] at hx
    obtain ⟨a, hxa, hab⟩ := hx
    rw [hxa]
    exact hk a b t' hy hab

theorem of_error {e : ε} {t' : τ} (hy : y.run t = .error e t')
    (hx : x.run (embed t) = .error e (embed t')) : Follows embed R x y t := by
  unfold Follows
  rw [hy]
  exact hx

theorem mono {R' : α → β → Prop} (h : Follows embed R x y t) (hR : ∀ a b, R a b → R' a b) :
    Follows embed R' x y t := by
  unfold Follows at h ⊢
  cases hy : y.run t with
  | error e t' =>
    rw [hy] at h
    exact h
  | ok b t' =>
    rw [hy] at h
    obtain ⟨a, hx, hab⟩ := h
    exact ⟨a, hx, hR a b hab⟩

/-- Two questions with related answers. -/
theorem ask {g : σ → Except ε α} {h : τ → Except ε β}
    (hgh : ∀ b, h t = .ok b → ∃ a, g (embed t) = .ok a ∧ R a b)
    (herr : ∀ e, h t = .error e → g (embed t) = .error e) :
    Follows embed R (Lib.ask g) (Lib.ask h) t := by
  unfold Follows
  rw [run_ask, run_ask]
  cases hh : h t with
  | ok b =>
    obtain ⟨a, ha, hab⟩ := hgh b hh
    exact ⟨a, by rw [ha], hab⟩
  | error e => simp only [herr e hh]

/-- The same question. -/
theorem ask_eq {g : σ → Except ε β} {h : τ → Except ε β} (hgh : g (embed t) = h t) :
    Follows embed Eq (Lib.ask g) (Lib.ask h) t :=
  ask (fun b hb => ⟨b, hgh.trans hb, rfl⟩) fun _ he => hgh.trans he

/-- The smaller program, run on the part of the larger state that is the smaller one. -/
theorem onPart {get : σ → τ} {set : τ → σ → σ} (hget : get (embed t) = t)
    (hset : ∀ t', set t' (embed t) = embed t') : Follows embed Eq (Lib.onPart get set y) y t := by
  unfold Follows
  rw [run_onPart, hget]
  cases y.run t with
  | ok b t' => exact ⟨b, congrArg (EStateM.Result.ok b) (hset t'), rfl⟩
  | error e t' => simp only [hset]

/-- The states in which the two programs end. -/
theorem finalState (h : Follows embed R x y t) :
    Lib.finalState x (embed t) = embed (Lib.finalState y t) := by
  unfold Follows at h
  unfold Lib.finalState
  cases hy : y.run t with
  | error e t' =>
    rw [hy] at h
    simp only at h
    rw [h]
  | ok b t' =>
    rw [hy] at h
    obtain ⟨a, ha, -⟩ := h
    rw [ha]

/-- Going on from programs that follow each other, where only the states are compared. -/
theorem finalState_bind (hx : Follows embed R x y t)
    (hk : ∀ a b t', y.run t = .ok b t' → R a b →
      Lib.finalState (k a) (embed t') = embed (Lib.finalState (l b) t')) :
    Lib.finalState (x >>= k) (embed t) = embed (Lib.finalState (y >>= l) t) := by
  unfold Follows at hx
  cases hy : y.run t with
  | error e t' =>
    rw [hy] at hx
    rw [finalState_bind_error hy, finalState_bind_error hx]
  | ok b t' =>
    rw [hy] at hx
    obtain ⟨a, hxa, hab⟩ := hx
    rw [finalState_bind_ok hy, finalState_bind_ok hxa]
    exact hk a b t' hy hab

theorem ite {c : Prop} [Decidable c] {x' : EStateM ε σ α} {y' : EStateM ε τ β}
    (h : c → Follows embed R x y t) (h' : ¬ c → Follows embed R x' y' t) :
    Follows embed R (if c then x else x') (if c then y else y') t := by
  split
  · exact h ‹_›
  · exact h' ‹_›

end Follows

/-- The program does the same before and after a change of the state. -/
def Commutes (g : σ → σ) (x : EStateM ε σ α) : Prop := ∀ s, Follows g Eq x x s

namespace Commutes

variable {g : σ → σ} {x : EStateM ε σ α} {f : α → EStateM ε σ β}

theorem pure (a : α) : Commutes g (Pure.pure a : EStateM ε σ α) := fun _ => Follows.pure rfl

theorem throw (e : ε) : Commutes g (MonadExcept.throw e : EStateM ε σ α) := fun _ =>
  Follows.of_error rfl rfl

theorem bind (hx : Commutes g x) (hf : ∀ a, Commutes g (f a)) : Commutes g (x >>= f) := by
  intro s
  refine Follows.bind (hx s) ?_
  rintro a _ s' - rfl
  exact hf a s'

theorem ask {h : σ → Except ε α} (hg : ∀ s, h (g s) = h s) : Commutes g (Lib.ask h) := fun s =>
  Follows.ask_eq (hg s)

theorem modify {h : σ → σ} (hg : ∀ s, h (g s) = g (h s)) :
    Commutes g (modify h : EStateM ε σ PUnit) := by
  intro s
  refine ⟨PUnit.unit, ?_, rfl⟩
  change EStateM.Result.ok PUnit.unit (h (g s)) = _
  rw [hg]

theorem ite {c : Prop} [Decidable c] {y : EStateM ε σ α} (hx : Commutes g x)
    (hy : Commutes g y) : Commutes g (if c then x else y) := by
  split
  · exact hx
  · exact hy

/-- A program on a part of the state that the change leaves alone. -/
theorem onPart {get : σ → τ} {set : τ → σ → σ} (y : EStateM ε τ α) (hget : ∀ s, get (g s) = get s)
    (hset : ∀ t s, set t (g s) = g (set t s)) : Commutes g (Lib.onPart get set y) := by
  intro s
  unfold Follows
  rw [run_onPart, run_onPart, hget]
  cases y.run (get s) with
  | ok a t => exact ⟨a, congrArg (EStateM.Result.ok a) (hset t s), rfl⟩
  | error e t => simp only [hset]

theorem attempt (hx : Commutes g x) : Commutes g (attempt x) := by
  intro s
  refine ⟨(), ?_, rfl⟩
  change EStateM.Result.ok () (finalState x (g s)) = _
  rw [(hx s).finalState]

/-- After a program that keeps a part of the state, and commutes with the change. -/
theorem bind_keeps {p : σ → γ} {R : β → β → Prop} {s : σ} (hx : Commutes g x) (hp : Keeps p x)
    (hf : ∀ a s', p s' = p s → Follows g R (f a) (f a) s') : Follows g R (x >>= f) (x >>= f) s := by
  refine Follows.bind (hx s) ?_
  rintro a _ s' hrun rfl
  exact hf a s' ((hp (p s)).ok rfl hrun)

end Commutes

end Rspacefs.Lib
