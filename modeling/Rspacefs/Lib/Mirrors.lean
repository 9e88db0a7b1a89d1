import Mathlib.Data.Option.Basic
import Rspacefs.Lib.EState

/-!
# Two programs side by side

Two programs run on states of two kinds. From related states one mirrors the other if both return,
with related values, or both fail, with related errors, and in either case they leave related
states.

## Main definitions

* `Lib.Alike` — two calls both return, or both fail
* `Lib.Mirrors` — two programs do, and leave related states

## Main results

* `Mirrors.bind`, `Mirrors.ask`, `Mirrors.onPart`, `Mirrors.forM`, … — one rule per way of building
  the two programs
-/

namespace Rspacefs.Lib

variable {ε ε' : Type}

/-- Two calls both return, with related values, or both fail. -/
def Alike {α β : Type} (Q : α → β → Prop) : Except ε α → Except ε' β → Prop
  | .ok a, .ok b => Q a b
  | .error _, .error _ => True
  | _, _ => False

namespace Alike

variable {α β γ δ : Type} {Q : α → β → Prop} {S : γ → δ → Prop} {x : Except ε α} {y : Except ε' β}

theorem bind {f : α → Except ε γ} {g : β → Except ε' δ} (h : Alike Q x y)
    (hfg : ∀ a b, x = .ok a → y = .ok b → Q a b → Alike S (f a) (g b)) :
    Alike S (x >>= f) (y >>= g) := by
  cases x with
  | error e =>
    cases y with
    | error e' => exact True.intro
    | ok b => exact h.elim
  | ok a =>
    cases y with
    | error e' => exact h.elim
    | ok b => exact hfg a b rfl rfl h

/-- The same call. -/
theorem of_eq {Q : α → α → Prop} (hQ : ∀ a, Q a a) {x y : Except ε α} (h : x = y) :
    Alike Q x y := by
  subst h
  cases x with
  | error e => exact True.intro
  | ok a => exact hQ a

theorem mono {Q' : α → β → Prop} (h : Alike Q x y) (hQ : ∀ a b, Q a b → Q' a b) :
    Alike Q' x y := by
  cases x with
  | error e =>
    cases y with
    | error e' => exact True.intro
    | ok b => exact h.elim
  | ok a =>
    cases y with
    | error e' => exact h.elim
    | ok b => exact hQ a b h

theorem exists_ok {a : α} (h : Alike Q (.ok a : Except ε α) y) : ∃ b, y = .ok b ∧ Q a b := by
  cases y with
  | error e => exact h.elim
  | ok b => exact ⟨b, rfl, h⟩

theorem exists_error {e : ε} (h : Alike Q (.error e : Except ε α) y) : ∃ e', y = .error e' := by
  cases y with
  | error e' => exact ⟨e', rfl⟩
  | ok b => exact h.elim

end Alike

theorem exists_of_rel_some {α β : Type} {Q : α → β → Prop} {a : α} {o : Option β}
    (h : Option.Rel Q (some a) o) : ∃ b, o = some b ∧ Q a b := by
  cases h with
  | some hab => exact ⟨_, rfl, hab⟩

theorem eq_none_of_rel_none {α β : Type} {Q : α → β → Prop} {o : Option β}
    (h : Option.Rel Q none o) : o = none := by
  cases h with
  | none => rfl

variable {σ τ σ' τ' α β γ δ : Type} {R : σ → τ → Prop} {E : ε → ε' → Prop} {Q : α → β → Prop}
  {S : γ → δ → Prop} {x : EStateM ε σ α} {y : EStateM ε' τ β} {k : α → EStateM ε σ γ}
  {l : β → EStateM ε' τ δ} {s : σ} {t : τ}

/-- Started in `s` and in `t`, the two programs end alike. -/
def Mirrors (R : σ → τ → Prop) (E : ε → ε' → Prop) (Q : α → β → Prop) (x : EStateM ε σ α)
    (y : EStateM ε' τ β) (s : σ) (t : τ) : Prop :=
  match x.run s, y.run t with
  | .ok a s', .ok b t' => Q a b ∧ R s' t'
  | .error e s', .error e' t' => E e e' ∧ R s' t'
  | _, _ => False

namespace Mirrors

/-- What there is to say of the first program, there is to say of the second. -/
theorem cases (h : Mirrors R E Q x y s t) :
    (∃ a b s' t', x.run s = .ok a s' ∧ y.run t = .ok b t' ∧ Q a b ∧ R s' t') ∨
      ∃ e e' s' t', x.run s = .error e s' ∧ y.run t = .error e' t' ∧ E e e' ∧ R s' t' := by
  unfold Mirrors at h
  cases hx : x.run s with
  | ok a s' =>
    cases hy : y.run t with
    | ok b t' =>
      rw [hx, hy] at h
      exact Or.inl ⟨a, b, s', t', rfl, rfl, h⟩
    | error e' t' =>
      rw [hx, hy] at h
      exact h.elim
  | error e s' =>
    cases hy : y.run t with
    | ok b t' =>
      rw [hx, hy] at h
      exact h.elim
    | error e' t' =>
      rw [hx, hy] at h
      exact Or.inr ⟨e, e', s', t', rfl, rfl, h⟩

theorem of_ok {a : α} {b : β} {s' : σ} {t' : τ} (hx : x.run s = .ok a s')
    (hy : y.run t = .ok b t') (hab : Q a b) (hR : R s' t') : Mirrors R E Q x y s t := by
  unfold Mirrors
  rw [hx, hy]
  exact ⟨hab, hR⟩

theorem of_error {e : ε} {e' : ε'} {s' : σ} {t' : τ} (hx : x.run s = .error e s')
    (hy : y.run t = .error e' t') (he : E e e') (hR : R s' t') : Mirrors R E Q x y s t := by
  unfold Mirrors
  rw [hx, hy]
  exact ⟨he, hR⟩

theorem pure {a : α} {b : β} (hab : Q a b) (hR : R s t) :
    Mirrors R E Q (Pure.pure a) (Pure.pure b) s t :=
  ⟨hab, hR⟩

theorem throw {e : ε} {e' : ε'} (he : E e e') (hR : R s t) :
    Mirrors R E Q (MonadExcept.throw e : EStateM ε σ α) (MonadExcept.throw e') s t :=
  ⟨he, hR⟩

theorem bind (hx : Mirrors R E Q x y s t)
    (hk : ∀ a b s' t', x.run s = .ok a s' → y.run t = .ok b t' → Q a b → R s' t' →
      Mirrors R E S (k a) (l b) s' t') :
    Mirrors R E S (x >>= k) (y >>= l) s t := by
  obtain ⟨a, b, s', t', hxs, hyt, hab, hR⟩ | ⟨e, e', s', t', hxs, hyt, he, hR⟩ := hx.cases
  · have hrest := hk a b s' t' hxs hyt hab hR
    unfold Mirrors at hrest ⊢
    rwa [run_bind_of_ok hxs, run_bind_of_ok hyt]
  · exact of_error (run_bind_of_error hxs) (run_bind_of_error hyt) he hR

/-- Two questions with answers alike. -/
theorem ask {g : σ → Except ε α} {h : τ → Except ε' β} (hgh : Alike Q (g s) (h t))
    (hE : ∀ e e', g s = .error e → h t = .error e' → E e e') (hR : R s t) :
    Mirrors R E Q (Lib.ask g) (Lib.ask h) s t := by
  unfold Mirrors
  rw [run_ask, run_ask]
  cases hg : g s with
  | ok a =>
    rw [hg] at hgh
    obtain ⟨b, hb, hab⟩ := hgh.exists_ok
    rw [hb]
    exact ⟨hab, hR⟩
  | error e =>
    rw [hg] at hgh
    obtain ⟨e', he'⟩ := hgh.exists_error
    rw [he']
    exact ⟨hE e e' hg he', hR⟩

/-- Two questions with answers alike, and what goes on from them. -/
theorem ask_bind {g : σ → Except ε α} {h : τ → Except ε' β} (hgh : Alike Q (g s) (h t))
    (hE : ∀ e e', g s = .error e → h t = .error e' → E e e') (hR : R s t)
    (hk : ∀ a b, g s = .ok a → h t = .ok b → Q a b → Mirrors R E S (k a) (l b) s t) :
    Mirrors R E S (Lib.ask g >>= k) (Lib.ask h >>= l) s t := by
  refine (ask hgh hE hR).bind fun a b s' t' hxs hyt hab _ => ?_
  obtain ⟨hg, rfl⟩ := run_ask_eq_ok.mp hxs
  obtain ⟨hh, rfl⟩ := run_ask_eq_ok.mp hyt
  exact hk a b hg hh hab

/-- A question about the answer to a question is one question. -/
theorem ask_ask_bind {g : σ → Except ε α} {h : α → Except ε β} {k : β → EStateM ε σ γ} :
    (Lib.ask g >>= fun a => Lib.ask (fun _ => h a) >>= k) = Lib.ask (fun s => g s >>= h) >>= k := by
  funext s
  change EStateM.run _ s = EStateM.run _ s
  cases hg : g s with
  | error e =>
    have hasked : (Lib.ask fun s => g s >>= h).run s = .error e s := by rw [run_ask, hg]; rfl
    rw [run_bind_of_error hasked, run_bind_of_error (e := e) (by rw [run_ask, hg])]
  | ok a =>
    rw [run_bind_of_ok (a := a) (by rw [run_ask, hg])]
    have hasked : (Lib.ask fun s => g s >>= h).run s = (Lib.ask fun _ => h a).run s := by
      rw [run_ask, run_ask, hg]
      rfl
    rw [EStateM.run_bind, EStateM.run_bind, hasked]

/-- The same program on the same state. -/
theorem same (x : EStateM ε σ α) (s : σ) : Mirrors Eq Eq Eq x x s s := by
  unfold Mirrors
  cases x.run s with
  | ok a s' => exact ⟨rfl, rfl⟩
  | error e s' => exact ⟨rfl, rfl⟩

theorem mono {E' : ε → ε' → Prop} {Q' : α → β → Prop} (h : Mirrors R E Q x y s t)
    (hE : ∀ e e', E e e' → E' e e') (hQ : ∀ a b, Q a b → Q' a b) : Mirrors R E' Q' x y s t := by
  obtain ⟨a, b, s', t', hxs, hyt, hab, hR⟩ | ⟨e, e', s', t', hxs, hyt, he, hR⟩ := h.cases
  · exact of_ok hxs hyt (hQ a b hab) hR
  · exact of_error hxs hyt (hE e e' he) hR

/-- Programs on parts of the states. -/
theorem onPart {R' : σ' → τ' → Prop} {x : EStateM ε σ' α} {y : EStateM ε' τ' β}
    {get : σ → σ'} {set : σ' → σ → σ} {get' : τ → τ'} {set' : τ' → τ → τ}
    (h : Mirrors R' E Q x y (get s) (get' t)) (hset : ∀ u v, R' u v → R (set u s) (set' v t)) :
    Mirrors R E Q (Lib.onPart get set x) (Lib.onPart get' set' y) s t := by
  unfold Mirrors
  rw [run_onPart, run_onPart]
  obtain ⟨a, b, u, v, hx, hy, hab, huv⟩ | ⟨e, e', u, v, hx, hy, he, huv⟩ := h.cases
  · rw [hx, hy]
    exact ⟨hab, hset u v huv⟩
  · rw [hx, hy]
    exact ⟨he, hset u v huv⟩

/-- Programs whose failures are answered with other errors. -/
theorem adaptExcept {ε₁ ε₂ : Type} {E' : ε₁ → ε₂ → Prop} {f : ε → ε₁} {g : ε' → ε₂}
    (h : Mirrors R E Q x y s t) (hfg : ∀ e e', E' (f e) (g e')) :
    Mirrors R E' Q (EStateM.adaptExcept f x) (EStateM.adaptExcept g y) s t := by
  unfold Mirrors
  rw [EStateM.run_adaptExcept, EStateM.run_adaptExcept]
  obtain ⟨a, b, s', t', hxs, hyt, hab, hR⟩ | ⟨e, e', s', t', hxs, hyt, -, hR⟩ := h.cases
  · rw [hxs, hyt]
    exact ⟨hab, hR⟩
  · rw [hxs, hyt]
    exact ⟨hfg e e', hR⟩

/-- The states that are left. -/
theorem finalState (h : Mirrors R E Q x y s t) : R (Lib.finalState x s) (Lib.finalState y t) := by
  unfold Lib.finalState
  obtain ⟨a, b, s', t', hxs, hyt, -, hR⟩ | ⟨e, e', s', t', hxs, hyt, -, hR⟩ := h.cases
  · rwa [hxs, hyt]
  · rwa [hxs, hyt]

/-- Programs that are run for their effect. -/
theorem attempt {E' : ε → ε' → Prop} (h : Mirrors R E Q x y s t) :
    Mirrors R E' (fun _ _ => True) (Lib.attempt x) (Lib.attempt y) s t :=
  ⟨True.intro, h.finalState⟩

theorem modify {f : σ → σ} {g : τ → τ} (h : R (f s) (g t)) :
    Mirrors R E (fun _ _ => True) (modify f : EStateM ε σ PUnit) (modify g : EStateM ε' τ PUnit)
      s t :=
  ⟨True.intro, h⟩

theorem ite {c d : Prop} [Decidable c] [Decidable d] {x' : EStateM ε σ α} {y' : EStateM ε' τ β}
    (hcd : c ↔ d) (h : c → Mirrors R E Q x y s t) (h' : ¬ c → Mirrors R E Q x' y' s t) :
    Mirrors R E Q (if c then x else x') (if d then y else y') s t := by
  by_cases hc : c
  · rw [if_pos hc, if_pos (hcd.mp hc)]
    exact h hc
  · rw [if_neg hc, if_neg (hcd.not.mp hc)]
    exact h' hc

/-- A loop whose rounds mirror each other. -/
theorem forM {as : List γ} {f : γ → EStateM ε σ PUnit} {g : γ → EStateM ε' τ PUnit}
    (h : ∀ a ∈ as, ∀ s t, R s t → Mirrors R E (fun _ _ => True) (f a) (g a) s t) (hR : R s t) :
    Mirrors R E (fun _ _ => True) (as.forM f) (as.forM g) s t := by
  induction as generalizing s t with
  | nil => exact ⟨True.intro, hR⟩
  | cons a as ih =>
    refine (h a List.mem_cons_self s t hR).bind fun _ _ s' t' _ _ _ hR' => ?_
    exact ih (fun b hb => h b (List.mem_cons_of_mem _ hb)) hR'

end Mirrors

end Rspacefs.Lib
