import Mathlib.Algebra.Order.Group.Nat
import Rspacefs.Lib.EState

/-!
# Programs that run on fuel

A recursion without a measure is run on fuel: a family of programs, one for each amount. A run
that has too little fails with an error of its own, and one that has enough does the same with
more. So the recursion ends exactly if some amount is enough.

## Main definitions

* `Lib.OutOf` — a run ended because its fuel did
* `Lib.RunsOn` — a program does what another does, unless that ran out
* `Lib.Settles` — from some amount on, all runs end alike
* `Lib.Terminates` — and not for want of fuel

## Main results

* `RunsOn.bind`, `RunsOn.forM` — a sequence and a loop extend what their parts extend
* `Terminates.bind`, `Terminates.forM` — and terminate if their parts do
* `terminates_iff` — one amount that is enough will do
-/

namespace Rspacefs.Lib

variable {ε σ α β : Type} {out : ε} {x y : EStateM ε σ α} {f g : α → EStateM ε σ β}
  {xs : Nat → EStateM ε σ α} {fs : Nat → α → EStateM ε σ β} {s s' : σ} {a : α}
  {r : EStateM.Result ε σ α}

/-- The run ended because it was out of fuel, which is told by its error. -/
def OutOf (out : ε) : EStateM.Result ε σ α → Prop
  | .ok _ _ => False
  | .error e _ => e = out

theorem OutOf.exists_error (h : OutOf out r) : ∃ s', r = .error out s' := by
  cases r with
  | ok a s' => cases h
  | error e s' => exact ⟨s', by rw [show e = out from h]⟩

/-! ### More fuel -/

/-- The second program does what the first does, unless that runs out. -/
def RunsOn (out : ε) (x y : EStateM ε σ α) : Prop :=
  ∀ s, OutOf out (x.run s) ∨ y.run s = x.run s

namespace RunsOn

theorem refl (x : EStateM ε σ α) : RunsOn out x x := fun _ => Or.inr rfl

theorem bind (hx : RunsOn out x y) (hf : ∀ a, RunsOn out (f a) (g a)) :
    RunsOn out (x >>= f) (y >>= g) := by
  intro s
  cases hrun : x.run s with
  | ok a s' =>
    have hsame : y.run s = .ok a s' := by simpa [hrun, OutOf] using hx s
    rw [run_bind_of_ok hrun, run_bind_of_ok hsame]
    exact hf a s'
  | error e s' =>
    rw [run_bind_of_error hrun]
    rcases hx s with hout | hsame
    · rw [hrun] at hout
      exact Or.inl hout
    · exact Or.inr (run_bind_of_error (hsame.trans hrun))

theorem forM {l : List α} {f g : α → EStateM ε σ PUnit} (h : ∀ a ∈ l, RunsOn out (f a) (g a)) :
    RunsOn out (l.forM f) (l.forM g) := by
  induction l with
  | nil => exact refl _
  | cons a l ih =>
    exact (h a List.mem_cons_self).bind fun _ => ih fun b hb => h b (List.mem_cons_of_mem a hb)

end RunsOn

/-! ### Enough fuel -/

/-- From some amount of fuel on, a run from `s` ends with `r`. -/
def Settles (xs : Nat → EStateM ε σ α) (s : σ) (r : EStateM.Result ε σ α) : Prop :=
  ∃ N, ∀ n ≥ N, (xs n).run s = r

theorem Settles.bind_ok {r : EStateM.Result ε σ β} (hx : Settles xs s (.ok a s'))
    (hf : Settles (fun n => fs n a) s' r) : Settles (fun n => xs n >>= fs n) s r := by
  obtain ⟨N, hN⟩ := hx
  obtain ⟨M, hM⟩ := hf
  refine ⟨max N M, fun n hn => ?_⟩
  rw [run_bind_of_ok (hN n ((le_max_left N M).trans hn))]
  exact hM n ((le_max_right N M).trans hn)

theorem Settles.bind_error {e : ε} (hx : Settles xs s (.error e s')) :
    Settles (fun n => xs n >>= fs n) s (.error e s') := by
  obtain ⟨N, hN⟩ := hx
  exact ⟨N, fun n hn => run_bind_of_error (hN n hn)⟩

/-- With enough fuel, a run from `s` does not run out of it. -/
def Terminates (out : ε) (xs : Nat → EStateM ε σ α) (s : σ) : Prop :=
  ∃ r, Settles xs s r ∧ ¬ OutOf out r

namespace Terminates

/-- A program that needs no fuel. -/
theorem fixed (h : ¬ OutOf out (x.run s)) : Terminates out (fun _ => x) s :=
  ⟨x.run s, ⟨0, fun _ _ => rfl⟩, h⟩

theorem of_failsWith {P : σ → Prop} (h : FailsWith (· ≠ out) P x) (hs : P s) :
    Terminates out (fun _ => x) s := by
  apply fixed
  intro hout
  obtain ⟨s', hrun⟩ := hout.exists_error
  exact h s hs out s' hrun rfl

theorem bind (hx : Terminates out xs s)
    (hf : ∀ a s', Settles xs s (.ok a s') → Terminates out (fun n => fs n a) s') :
    Terminates out (fun n => xs n >>= fs n) s := by
  obtain ⟨r, hr, hout⟩ := hx
  cases r with
  | ok a s' =>
    obtain ⟨r', hr', hout'⟩ := hf a s' hr
    exact ⟨r', hr.bind_ok hr', hout'⟩
  | error e s' => exact ⟨.error e s', hr.bind_error, hout⟩

/-- What does not terminate, does not behind a part that does. -/
theorem exists_of_not_bind (hx : Terminates out xs s)
    (h : ¬ Terminates out (fun n => xs n >>= fs n) s) :
    ∃ a s', Settles xs s (.ok a s') ∧ ¬ Terminates out (fun n => fs n a) s' := by
  by_contra hall
  push Not at hall
  exact h (hx.bind hall)

theorem congr {ys : Nat → EStateM ε σ α} (h : Terminates out xs s)
    (hsame : ∀ n, (ys n).run s = (xs n).run s) : Terminates out ys s := by
  obtain ⟨r, ⟨N, hN⟩, hout⟩ := h
  exact ⟨r, ⟨N, fun n hn => (hsame n).trans (hN n hn)⟩, hout⟩

theorem forM {l : List α} {gs : Nat → α → EStateM ε σ PUnit}
    (h : ∀ a ∈ l, ∀ s, Terminates out (fun n => gs n a) s) (s : σ) :
    Terminates out (fun n => l.forM (gs n)) s := by
  induction l generalizing s with
  | nil => exact fixed fun hout => hout
  | cons a l ih =>
    exact (h a List.mem_cons_self s).bind fun _ s' _ =>
      ih (fun b hb => h b (List.mem_cons_of_mem a hb)) s'

end Terminates

/-- One unit more or less makes no difference. -/
theorem terminates_succ_iff : Terminates out (fun n => xs (n + 1)) s ↔ Terminates out xs s := by
  constructor
  · rintro ⟨r, ⟨N, hN⟩, hout⟩
    refine ⟨r, ⟨N + 1, fun n hn => ?_⟩, hout⟩
    obtain ⟨n, rfl⟩ := Nat.exists_eq_add_one_of_ne_zero (show n ≠ 0 by omega)
    exact hN n (by omega)
  · rintro ⟨r, ⟨N, hN⟩, hout⟩
    exact ⟨r, ⟨N, fun n hn => hN (n + 1) (by omega)⟩, hout⟩

/-- Where more fuel extends every run, one amount that is enough will do. -/
theorem terminates_iff (hmono : ∀ n, RunsOn out (xs n) (xs (n + 1))) :
    Terminates out xs s ↔ ∃ n, ¬ OutOf out ((xs n).run s) := by
  constructor
  · rintro ⟨r, ⟨N, hN⟩, hout⟩
    exact ⟨N, by rwa [hN N le_rfl]⟩
  · rintro ⟨N, hout⟩
    refine ⟨(xs N).run s, ⟨N, fun n hn => ?_⟩, hout⟩
    induction n, hn using Nat.le_induction with
    | base => rfl
    | succ n _ ih =>
      rw [← ih]
      exact (hmono n s).resolve_left (ih ▸ hout)

end Rspacefs.Lib
