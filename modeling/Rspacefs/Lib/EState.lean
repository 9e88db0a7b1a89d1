import Mathlib.Logic.Basic

/-!
# Rules for stateful programs that may fail

An `EStateM ε σ` program ends either in a value or in an error, and in both cases
leaves a state: a failing program keeps the changes it had made. `Triple P x Q E`
says that from every state satisfying `P`, a run of `x` that returns satisfies
`Q`, and a run that fails leaves a state satisfying `E`.

## Main definitions

* `Lib.Ends`, `Lib.Triple` — post- and failure condition of a finished run, and of a
  program from every state satisfying a precondition
* `Lib.ask` — a computation that only reads the state
* `Lib.onPart` — a program on one part of the state, run in place
* `Lib.attempt` — a program run for its effect only
* `Lib.Agree` — two calls end alike
* `Lib.Keeps` — a program leaves a part of the state as it is
* `Lib.Refuses` — a program fails and changes nothing
* `Lib.Returns` — a program returns
* `Lib.FailsWith` — the ways in which a program may fail

## Main results

* `Triple.bind`, `Triple.ask`, `Triple.onPart`, `Triple.pure` — one rule per way
  of building a program
* `Triple.weaken` — the rule of consequence
* `Triple.bind_from` — the rule of sequence from a fixed start
* `Triple.forM` — loops keep what their body keeps
* `Refuses.bind`, `Refuses.after` — a sequence is refused at its start, or later
* `FailsWith.bind`, `FailsWith.forM` — a sequence and a loop fail in the ways of their parts
-/

namespace Rspacefs.Lib

variable {ε σ τ α β : Type} {x : EStateM ε σ α} {f : α → EStateM ε σ β}
  {P P' : σ → Prop} {R : α → σ → Prop} {Q Q' : β → σ → Prop} {E E' : σ → Prop} {s : σ}

/-- A call that returns goes on with its value. -/
theorem ok_bind (a : α) (f : α → Except ε β) : (Except.ok a >>= f) = f a := rfl

/-- A returned bind splits into two returned calls. -/
theorem except_bind_eq_ok {x : Except ε α} {f : α → Except ε β} {b : β} :
    (x >>= f) = .ok b ↔ ∃ a, x = .ok a ∧ f a = .ok b := by
  cases x with
  | error e => simp [bind, Except.bind]
  | ok a => simp [bind, Except.bind]

/-- Two calls both return, with related values, or fail with the same error. -/
def Agree {γ δ : Type} (R : γ → δ → Prop) : Except ε γ → Except ε δ → Prop
  | .ok a, .ok b => R a b
  | .error e, .error e' => e = e'
  | _, _ => False

theorem Agree.bind {γ δ : Type} {R : α → β → Prop} {S : γ → δ → Prop} {x : Except ε α}
    {y : Except ε β} {f : α → Except ε γ} {g : β → Except ε δ} (h : Agree R x y)
    (hfg : ∀ a b, R a b → Agree S (f a) (g b)) : Agree S (x >>= f) (y >>= g) := by
  cases x with
  | error e =>
    cases y with
    | error e' => exact h
    | ok b => exact h.elim
  | ok a =>
    cases y with
    | error e' => exact h.elim
    | ok b => exact hfg a b h

theorem Agree.of_eq {R : α → α → Prop} (hR : ∀ a, R a a) {x y : Except ε α} (h : x = y) :
    Agree R x y := by
  subst h
  cases x with
  | error e => rfl
  | ok a => exact hR a

theorem Agree.eq {x y : Except ε α} (h : Agree (· = ·) x y) : x = y := by
  cases x with
  | error e =>
    cases y with
    | error e' => exact congrArg _ h
    | ok b => exact h.elim
  | ok a =>
    cases y with
    | error e' => exact h.elim
    | ok b => exact congrArg _ h

/-- A traversal returns if its first call and the rest of it do. -/
theorem mapM_cons_eq_ok_iff {g : α → Except ε β} {a : α} {l : List α} {l' : List β} :
    (a :: l).mapM g = .ok l' ↔ ∃ b rest, g a = .ok b ∧ l.mapM g = .ok rest ∧ l' = b :: rest := by
  rw [List.mapM_cons, except_bind_eq_ok]
  constructor
  · rintro ⟨b, hb, h⟩
    obtain ⟨rest, hrest, h⟩ := except_bind_eq_ok.mp h
    exact ⟨b, rest, hb, hrest, (Except.ok.inj h).symm⟩
  · rintro ⟨b, rest, hb, hrest, rfl⟩
    exact ⟨b, hb, except_bind_eq_ok.mpr ⟨rest, hrest, rfl⟩⟩

theorem length_of_mapM_eq_ok {g : α → Except ε β} {l : List α} {l' : List β}
    (h : l.mapM g = .ok l') : l'.length = l.length := by
  induction l generalizing l' with
  | nil =>
    cases h
    rfl
  | cons a l ih =>
    obtain ⟨b, rest, -, hrest, rfl⟩ := mapM_cons_eq_ok_iff.mp h
    rw [List.length_cons, List.length_cons, ih hrest]

/-- What a returned traversal gives comes from one of its calls. -/
theorem mem_of_mapM_eq_ok {g : α → Except ε β} {l : List α} {l' : List β}
    (h : l.mapM g = .ok l') {b : β} (hb : b ∈ l') : ∃ a ∈ l, g a = .ok b := by
  induction l generalizing l' with
  | nil =>
    cases h
    cases hb
  | cons a l ih =>
    obtain ⟨b', rest, hb', hrest, rfl⟩ := mapM_cons_eq_ok_iff.mp h
    rcases List.mem_cons.mp hb with rfl | hb
    · exact ⟨a, List.mem_cons_self, hb'⟩
    · obtain ⟨a', ha', hg⟩ := ih hrest hb
      exact ⟨a', List.mem_cons_of_mem _ ha', hg⟩

/-- A returned traversal has the result of each call. -/
theorem exists_of_mapM_eq_ok {g : α → Except ε β} {l : List α} {l' : List β}
    (h : l.mapM g = .ok l') {a : α} (ha : a ∈ l) : ∃ b ∈ l', g a = .ok b := by
  induction l generalizing l' with
  | nil => cases ha
  | cons a' l ih =>
    obtain ⟨b', rest, hb', hrest, rfl⟩ := mapM_cons_eq_ok_iff.mp h
    rcases List.mem_cons.mp ha with rfl | ha
    · exact ⟨b', List.mem_cons_self, hb'⟩
    · obtain ⟨b, hb, hg⟩ := ih hrest ha
      exact ⟨b, List.mem_cons_of_mem _ hb, hg⟩

/-- A traversal whose calls return. -/
theorem mapM_eq_ok_of_forall {g : α → Except ε β} {f : α → β} {l : List α}
    (h : ∀ a ∈ l, g a = .ok (f a)) : l.mapM g = .ok (l.map f) := by
  induction l with
  | nil => rfl
  | cons a l ih =>
    obtain ⟨hfirst, hrest⟩ := List.forall_mem_cons.mp h
    rw [List.mapM_cons, hfirst, ih hrest]
    rfl

theorem exists_bind_eq_ok {x : Except ε α} {f : α → Except ε β} (hx : ∃ a, x = .ok a)
    (hf : ∀ a, ∃ b, f a = .ok b) : ∃ b, (x >>= f) = .ok b := by
  obtain ⟨a, rfl⟩ := hx
  exact hf a

/-- Such a traversal, where the results have no name. -/
theorem exists_mapM_eq_ok {g : α → Except ε β} {l : List α} (h : ∀ a ∈ l, ∃ b, g a = .ok b) :
    ∃ l', l.mapM g = .ok l' := by
  induction l with
  | nil => exact ⟨[], rfl⟩
  | cons a l ih =>
    obtain ⟨⟨b, hb⟩, hrest⟩ := List.forall_mem_cons.mp h
    obtain ⟨l', hl'⟩ := ih hrest
    exact ⟨b :: l', by rw [List.mapM_cons, hb, hl']; rfl⟩

/-- The state a run leaves, whether it returns or fails. -/
def finalState (x : EStateM ε σ α) (s : σ) : σ :=
  match x.run s with
  | .ok _ s' => s'
  | .error _ s' => s'

/-- A computation that reads the state and may fail, but changes nothing. -/
def ask (g : σ → Except ε α) : EStateM ε σ α := fun s =>
  match g s with
  | .ok a => .ok a s
  | .error e => .error e s

/-- A program on the part of the state that `get` selects and `set` writes back. -/
def onPart (get : σ → τ) (set : τ → σ → σ) (x : EStateM ε τ α) : EStateM ε σ α := fun s =>
  match x.run (get s) with
  | .ok a t => .ok a (set t s)
  | .error e t => .error e (set t s)

/-- Run a program for its effect and ignore whether it failed. -/
def attempt (x : EStateM ε σ α) : EStateM ε σ Unit := fun s => .ok () (finalState x s)

theorem run_ask (g : σ → Except ε α) (s : σ) :
    (ask g).run s = match g s with
      | .ok a => .ok a s
      | .error e => .error e s := rfl

theorem run_onPart (get : σ → τ) (set : τ → σ → σ) (x : EStateM ε τ α) (s : σ) :
    (onPart get set x).run s = match x.run (get s) with
      | .ok a t => .ok a (set t s)
      | .error e t => .error e (set t s) := rfl

/-- How a run ended: with a value and `Q`, or failing and with `E`. -/
def Ends : EStateM.Result ε σ α → (Q : α → σ → Prop) → (E : σ → Prop) → Prop
  | .ok a s, Q, _ => Q a s
  | .error _ s, _, E => E s

@[simp] theorem ends_ok {a : α} {Q : α → σ → Prop} :
    Ends (.ok a s : EStateM.Result ε σ α) Q E ↔ Q a s := Iff.rfl

@[simp] theorem ends_error {e : ε} {Q : α → σ → Prop} :
    Ends (.error e s : EStateM.Result ε σ α) Q E ↔ E s := Iff.rfl

/-- The state left by a bind whose first program returns, or fails. -/
theorem finalState_bind_ok {a : α} {s' : σ} (h : x.run s = .ok a s') :
    finalState (x >>= f) s = finalState (f a) s' := by
  rw [finalState, finalState, EStateM.run_bind, h]

theorem finalState_bind_error {e : ε} {s' : σ} (h : x.run s = .error e s') :
    finalState (x >>= f) s = s' := by
  rw [finalState, EStateM.run_bind, h]

/-- Pre-, post- and failure condition. -/
def Triple (P : σ → Prop) (x : EStateM ε σ α) (Q : α → σ → Prop) (E : σ → Prop) : Prop :=
  ∀ s, P s → Ends (x.run s) Q E

theorem Triple.ok (h : Triple P x R E) (hs : P s) {a : α} {s' : σ}
    (hrun : x.run s = .ok a s') : R a s' := by
  have := h s hs
  rwa [hrun] at this

theorem Triple.error (h : Triple P x R E) (hs : P s) {e : ε} {s' : σ}
    (hrun : x.run s = .error e s') : E s' := by
  have := h s hs
  rwa [hrun] at this

/-- When both exits establish the same condition, so does the final state. -/
theorem Triple.finalState (h : Triple P x (fun _ => E) E) (hs : P s) : E (finalState x s) := by
  unfold Lib.finalState
  cases hrun : x.run s with
  | ok a s' => exact h.ok hs hrun
  | error e s' => exact h.error hs hrun

theorem Triple.weaken {Q Q' : α → σ → Prop} (h : Triple P x Q E) (hP : ∀ s, P' s → P s)
    (hQ : ∀ a s, Q a s → Q' a s) (hE : ∀ s, E s → E' s) : Triple P' x Q' E' := by
  intro s hs
  cases hrun : x.run s with
  | ok a s' => exact hQ a s' (h.ok (hP s hs) hrun)
  | error e s' => exact hE s' (h.error (hP s hs) hrun)

/-- Nothing asked of a run that fails. -/
theorem Triple.forget (h : Triple P x R E) : Triple P x R fun _ => True :=
  h.weaken (fun _ h => h) (fun _ _ h => h) fun _ _ => trivial

/-- From one state that satisfies the precondition. -/
theorem Triple.from_state (h : Triple P x R E) (hs : P s) : Triple (· = s) x R E := by
  rintro _ rfl
  exact h _ hs

/-- Any program, when nothing is asked. -/
theorem Triple.true : Triple P x (fun _ _ => True) (fun _ => True) := by
  intro s _
  cases x.run s <;> exact trivial

theorem Triple.pure {Q : α → σ → Prop} (a : α) (h : ∀ s, P s → Q a s) :
    Triple P (Pure.pure a : EStateM ε σ α) Q E :=
  fun s hs => h s hs

theorem Triple.throw {Q : α → σ → Prop} (e : ε) (h : ∀ s, P s → E s) :
    Triple P (MonadExcept.throw e : EStateM ε σ α) Q E :=
  fun s hs => h s hs

theorem Triple.bind (hx : Triple P x R E) (hf : ∀ a, Triple (R a) (f a) Q E) :
    Triple P (x >>= f) Q E := by
  intro s hs
  rw [EStateM.run_bind]
  cases hrun : x.run s with
  | ok a s' => exact hf a s' (hx.ok hs hrun)
  | error e s' => exact hx.error hs hrun

/-- Changing the value of a run that returns. -/
theorem Triple.map {g : α → β} (hx : Triple P x R E) (hQ : ∀ a s, R a s → Q (g a) s) :
    Triple P (g <$> x) Q E := by
  rw [← bind_pure_comp]
  exact hx.bind fun a => Triple.pure (g a) (hQ a)

/-- It is enough to start from each single state. -/
theorem Triple.of_forall {Q : α → σ → Prop} (h : ∀ s, P s → Triple (· = s) x Q E) :
    Triple P x Q E :=
  fun s hs => h s hs s rfl

/-- The rule of sequence from a fixed start, with the state in between named. -/
theorem Triple.bind_from (hx : Triple (· = s) x R E)
    (hf : ∀ a s', R a s' → Triple (· = s') (f a) Q E) : Triple (· = s) (x >>= f) Q E :=
  hx.bind fun a => Triple.of_forall (hf a)

/-- The rule of sequence after a run that is known. -/
theorem Triple.bind_run {a : α} {s' : σ} (hx : x.run s = .ok a s')
    (hf : Triple (· = s') (f a) Q E) : Triple (· = s) (x >>= f) Q E := by
  rintro _ rfl
  rw [EStateM.run_bind, hx]
  exact hf s' rfl

/-- Reading the state gives a value computed from it. -/
theorem Triple.ask {g : σ → Except ε α} {Q : α → σ → Prop} (hok : ∀ s a, P s → g s = .ok a → Q a s)
    (herr : ∀ s, P s → E s) : Triple P (ask g) Q E := by
  intro s hs
  rw [run_ask]
  cases hg : g s with
  | ok a => exact hok s a hs hg
  | error e => exact herr s hs

theorem run_tryCatch (y : EStateM ε σ α) (h : ε → EStateM ε σ α) (s : σ) :
    (tryCatch y h).run s = match y.run s with
      | .ok a s' => .ok a s'
      | .error e s' => (h e).run s' := by
  change EStateM.tryCatch y h s = _
  delta EStateM.tryCatch EStateM.run
  cases y s <;> rfl

/-- Reading a known state. -/
theorem Triple.ask_from {g : σ → Except ε α} (hE : E s)
    (h : ∀ a, g s = .ok a → Triple (· = s) (f a) Q E) : Triple (· = s) (Lib.ask g >>= f) Q E := by
  intro s' hs'
  rw [hs', EStateM.run_bind, run_ask]
  cases hg : g s with
  | ok a => exact h a hg s rfl
  | error e => exact hE

/-- Reading a known state, where it matters whether that fails. -/
theorem Triple.ask_cases {g : σ → Except ε α} (hE : ∀ e, g s = .error e → E s)
    (h : ∀ a, g s = .ok a → Triple (· = s) (f a) Q E) : Triple (· = s) (Lib.ask g >>= f) Q E := by
  intro s' hs'
  rw [hs', EStateM.run_bind, run_ask]
  cases hg : g s with
  | ok a => exact h a hg s rfl
  | error e => exact hE e hg

/-- The handler starts in the state the failing program left. -/
theorem Triple.tryCatch {h : ε → EStateM ε σ α} (hx : Triple P x R E)
    (hh : ∀ e, Triple E (h e) R E') : Triple P (MonadExcept.tryCatch x h) R E' := by
  intro s hs
  rw [run_tryCatch]
  cases hrun : x.run s with
  | ok a s' => exact hx.ok hs hrun
  | error e s' => exact hh e s' (hx.error hs hrun)

theorem Triple.ite {c : Prop} [Decidable c] {x y : EStateM ε σ α} {Q : α → σ → Prop}
    (hx : c → Triple P x Q E) (hy : ¬ c → Triple P y Q E) :
    Triple P (if c then x else y) Q E := by
  split
  · exact hx ‹_›
  · exact hy ‹_›

theorem Triple.onPart {get : σ → τ} {set : τ → σ → σ} {x : EStateM ε τ α}
    {Q : α → σ → Prop} (s₀ : σ)
    (h : Triple (fun t => t = get s₀) x (fun a t => Q a (set t s₀)) (fun t => E (set t s₀))) :
    Triple (fun s => s = s₀) (onPart get set x) Q E := by
  rintro s rfl
  rw [run_onPart]
  cases hrun : x.run (get s) with
  | ok a t => exact h.ok rfl hrun
  | error e t => exact h.error rfl hrun

theorem Triple.adaptExcept {ε' : Type} {e : ε → ε'} (h : Triple P x R E) :
    Triple P (EStateM.adaptExcept e x) R E := by
  intro s hs
  rw [EStateM.run_adaptExcept]
  cases hrun : x.run s with
  | ok a s' => exact h.ok hs hrun
  | error e s' => exact h.error hs hrun

theorem Triple.attempt (h : Triple P x (fun _ => E) E) :
    Triple P (attempt x) (fun _ => E) E' :=
  fun _ hs => h.finalState hs

theorem Triple.modify {g : σ → σ} {Q : PUnit → σ → Prop} (h : ∀ s, P s → Q ⟨⟩ (g s)) :
    Triple P (modify g : EStateM ε σ PUnit) Q E :=
  fun s hs => h s hs

/-- The program leaves the part `g` of the state as it is. -/
def Keeps (g : σ → τ) (x : EStateM ε σ α) : Prop :=
  ∀ b, Triple (fun s => g s = b) x (fun _ s => g s = b) (fun s => g s = b)

namespace Keeps

variable {g : σ → τ}

theorem bind (hx : Keeps g x) (hf : ∀ a, Keeps g (f a)) : Keeps g (x >>= f) :=
  fun b => Triple.bind (hx b) fun a => hf a b

theorem pure (a : α) : Keeps g (Pure.pure a : EStateM ε σ α) :=
  fun _ => Triple.pure a fun _ h => h

theorem throw (e : ε) : Keeps g (MonadExcept.throw e : EStateM ε σ α) :=
  fun _ => Triple.throw e fun _ h => h

theorem ask (h : σ → Except ε α) : Keeps g (ask h) :=
  fun _ => Triple.ask (fun _ _ h _ => h) fun _ h => h

theorem ite {c : Prop} [Decidable c] {y : EStateM ε σ α} (hx : Keeps g x) (hy : Keeps g y) :
    Keeps g (if c then x else y) :=
  fun b => Triple.ite (fun _ => hx b) fun _ => hy b

theorem modify {h : σ → σ} (hg : ∀ s, g (h s) = g s) :
    Keeps g (modify h : EStateM ε σ PUnit) :=
  fun _ => Triple.modify fun s hs => (hg s).trans hs

theorem map (hx : Keeps g x) (h : α → β) : Keeps g (h <$> x) :=
  fun b => Triple.map (hx b) fun _ _ hs => hs

theorem get : Keeps g (MonadState.get : EStateM ε σ σ) :=
  fun _ _ hs => hs

theorem adaptExcept {ε' : Type} (hx : Keeps g x) (e : ε → ε') :
    Keeps g (EStateM.adaptExcept e x) :=
  fun b => Triple.adaptExcept (hx b)

/-- A program on another part of the state. -/
theorem onPart {ρ : Type} {read : σ → ρ} {write : ρ → σ → σ} {y : EStateM ε ρ α}
    (h : ∀ t s, g (write t s) = g s) : Keeps g (onPart read write y) := by
  intro b s hs
  rw [run_onPart]
  cases y.run (read s) with
  | ok a t => exact (h t s).trans hs
  | error e t => exact (h t s).trans hs

theorem attempt (hx : Keeps g x) : Keeps g (attempt x) :=
  fun b => Triple.attempt (hx b)

/-- Any condition on the part survives. -/
theorem triple {I : τ → Prop} (hx : Keeps g x) :
    Triple (fun s => I (g s)) x (fun _ s => I (g s)) (fun s => I (g s)) := by
  refine Triple.of_forall fun s hs => (hx (g s)).weaken (by rintro _ rfl; rfl) ?_ ?_
  · intro _ s' hs'
    rwa [hs']
  · intro s' hs'
    rwa [hs']

theorem finalState (hx : Keeps g x) (s : σ) : g (Lib.finalState x s) = g s :=
  Triple.finalState (hx (g s)) rfl

end Keeps

/-- Two descriptions of the same program. -/
theorem Triple.and {Q Q' : α → σ → Prop} (h : Triple P x Q E) (h' : Triple P' x Q' E') :
    Triple (fun s => P s ∧ P' s) x (fun a s => Q a s ∧ Q' a s) (fun s => E s ∧ E' s) := by
  intro s hs
  cases hrun : x.run s with
  | ok a s' => exact ⟨h.ok hs.1 hrun, h'.ok hs.2 hrun⟩
  | error e s' => exact ⟨h.error hs.1 hrun, h'.error hs.2 hrun⟩

/-- A loop whose body keeps `P`. -/
theorem Triple.forM {l : List α} {g : α → EStateM ε σ PUnit}
    (h : ∀ a ∈ l, Triple P (g a) (fun _ => P) E) : Triple P (l.forM g) (fun _ => P) E := by
  induction l with
  | nil => exact Triple.pure _ fun _ hs => hs
  | cons a l ih =>
    exact Triple.bind (h a (by simp)) fun _ => ih fun b hb => h b (by simp [hb])

/-- Behind a run that returns, the rest goes on. -/
theorem run_bind_of_ok {s' : σ} {a : α} (h : x.run s = .ok a s') :
    (x >>= f).run s = (f a).run s' := by
  rw [EStateM.run_bind, h]

/-- Behind a run that fails, nothing does. -/
theorem run_bind_of_error {s' : σ} {e : ε} (h : x.run s = .error e s') :
    (x >>= f).run s = .error e s' := by
  rw [EStateM.run_bind, h]

/-- A returned bind splits into two returned runs. -/
theorem run_bind_eq_ok {b : β} {s'' : σ} :
    (x >>= f).run s = .ok b s'' ↔
      ∃ a s', x.run s = .ok a s' ∧ (f a).run s' = .ok b s'' := by
  rw [EStateM.run_bind]
  constructor
  · intro h
    split at h
    · rename_i a s' hx
      exact ⟨a, s', hx, h⟩
    · cases h
  · rintro ⟨a, s', hx, hf⟩
    rw [hx]
    exact hf

theorem run_ask_eq_ok {g : σ → Except ε α} {a : α} {s' : σ} :
    (ask g).run s = .ok a s' ↔ g s = .ok a ∧ s' = s := by
  rw [run_ask]
  constructor
  · intro h
    split at h <;> cases h
    exact ⟨‹_›, rfl⟩
  · rintro ⟨hg, rfl⟩
    rw [hg]

theorem run_onPart_eq_ok {get : σ → τ} {set : τ → σ → σ} {x : EStateM ε τ α} {a : α} {s' : σ} :
    (onPart get set x).run s = .ok a s' ↔ ∃ t, x.run (get s) = .ok a t ∧ s' = set t s := by
  rw [run_onPart]
  constructor
  · intro h
    split at h <;> cases h
    exact ⟨_, ‹_›, rfl⟩
  · rintro ⟨t, hx, rfl⟩
    rw [hx]

/-! ### Refusals -/

/-- From this state the program fails, and changes nothing. -/
def Refuses (x : EStateM ε σ α) (s : σ) : Prop := ∃ e, x.run s = .error e s

namespace Refuses

theorem throw (e : ε) : Refuses (MonadExcept.throw e : EStateM ε σ α) s := ⟨e, rfl⟩

theorem ask {g : σ → Except ε α} {e : ε} (h : g s = .error e) : Refuses (ask g) s :=
  ⟨e, by rw [run_ask, h]⟩

theorem finalState (h : Refuses x s) : finalState x s = s := by
  obtain ⟨e, he⟩ := h
  rw [Lib.finalState, he]

theorem bind (h : Refuses x s) (f : α → EStateM ε σ β) : Refuses (x >>= f) s := by
  obtain ⟨e, he⟩ := h
  exact ⟨e, run_bind_of_error he⟩

/-- What comes before returns and changes nothing. -/
theorem after {a : α} (hx : x.run s = .ok a s) (h : Refuses (f a) s) : Refuses (x >>= f) s := by
  obtain ⟨e, he⟩ := h
  refine ⟨e, ?_⟩
  rw [EStateM.run_bind, hx]
  exact he

/-- Reading first, whether or not that fails. -/
theorem ask_bind {g : σ → Except ε α} (h : ∀ a, g s = .ok a → Refuses (f a) s) :
    Refuses (Lib.ask g >>= f) s := by
  cases hg : g s with
  | error e => exact (ask hg).bind f
  | ok a => exact (h a hg).after (run_ask_eq_ok.mpr ⟨hg, rfl⟩)

theorem map (h : Refuses x s) (g : α → β) : Refuses (g <$> x) s := by
  rw [← bind_pure_comp]
  exact h.bind _

theorem onPart {get : σ → τ} {set : τ → σ → σ} {y : EStateM ε τ α} (h : Refuses y (get s))
    (hset : set (get s) s = s) : Refuses (onPart get set y) s := by
  obtain ⟨e, he⟩ := h
  refine ⟨e, ?_⟩
  rw [run_onPart, he]
  exact congrArg _ hset

theorem adaptExcept {ε' : Type} (h : Refuses x s) (f : ε → ε') :
    Refuses (EStateM.adaptExcept f x) s := by
  obtain ⟨e, he⟩ := h
  exact ⟨f e, by rw [EStateM.run_adaptExcept, he]⟩

/-- What is refused leaves what held. -/
theorem triple {Q : α → σ → Prop} (h : Refuses x s) (hE : E s) : Triple (· = s) x Q E := by
  intro s' hs'
  obtain ⟨e, he⟩ := h
  rw [hs', he]
  exact hE

end Refuses

/-! ### Returns -/

/-- From this state the program returns. -/
def Returns (x : EStateM ε σ α) (s : σ) : Prop := ∃ a s', x.run s = .ok a s'

theorem Refuses.not_returns (h : Refuses x s) : ¬ Returns x s := by
  rintro ⟨a, s', hok⟩
  obtain ⟨e, he⟩ := h
  rw [he] at hok
  cases hok

namespace Returns

theorem bind_iff : Returns (x >>= f) s ↔ ∃ a s', x.run s = .ok a s' ∧ Returns (f a) s' := by
  constructor
  · rintro ⟨b, s'', h⟩
    obtain ⟨a, s', hx, hf⟩ := run_bind_eq_ok.mp h
    exact ⟨a, s', hx, b, s'', hf⟩
  · rintro ⟨a, s', hx, b, s'', hf⟩
    exact ⟨b, s'', run_bind_eq_ok.mpr ⟨a, s', hx, hf⟩⟩

theorem onPart_iff {get : σ → τ} {set : τ → σ → σ} {y : EStateM ε τ α} :
    Returns (onPart get set y) s ↔ Returns y (get s) := by
  constructor
  · rintro ⟨a, s', h⟩
    obtain ⟨t, ht, -⟩ := run_onPart_eq_ok.mp h
    exact ⟨a, t, ht⟩
  · rintro ⟨a, t, ht⟩
    exact ⟨a, set t s, run_onPart_eq_ok.mpr ⟨t, ht, rfl⟩⟩

/-- A program that reads first. -/
theorem ask_bind_iff {g : σ → Except ε α} :
    Returns (Lib.ask g >>= f) s ↔ ∃ a, g s = .ok a ∧ Returns (f a) s := by
  rw [bind_iff]
  constructor
  · rintro ⟨a, s', h, hf⟩
    obtain ⟨hg, rfl⟩ := run_ask_eq_ok.mp h
    exact ⟨a, hg, hf⟩
  · rintro ⟨a, hg, hf⟩
    exact ⟨a, s, run_ask_eq_ok.mpr ⟨hg, rfl⟩, hf⟩

end Returns

/-! ### Failing in a given way -/

/-- From a state satisfying `P` the program fails, if it does, with an error in `X`. -/
def FailsWith (X : ε → Prop) (P : σ → Prop) (x : EStateM ε σ α) : Prop :=
  ∀ s, P s → ∀ e s', x.run s = .error e s' → X e

namespace FailsWith

variable {X : ε → Prop}

theorem weaken (h : FailsWith X P x) (hP : ∀ s, P' s → P s) : FailsWith X P' x :=
  fun s hs => h s (hP s hs)

theorem pure (a : α) : FailsWith X P (Pure.pure a : EStateM ε σ α) := by
  intro s _ e s' h
  cases h

/-- What the first program leaves is where the second starts. -/
theorem bind (hx : FailsWith X P x) (hpost : Triple P x R E) (hf : ∀ a, FailsWith X (R a) (f a)) :
    FailsWith X P (x >>= f) := by
  intro s hs e s' h
  rw [EStateM.run_bind] at h
  cases hrun : x.run s with
  | ok a s₁ =>
    rw [hrun] at h
    exact hf a s₁ (hpost.ok hs hrun) e s' h
  | error e₁ s₁ =>
    rw [hrun] at h
    cases h
    exact hx s hs e s' hrun

/-- A second program that may start anywhere. -/
theorem then_any (hx : FailsWith X P x) (hf : ∀ a, FailsWith X (fun _ => True) (f a)) :
    FailsWith X P (x >>= f) :=
  hx.bind Triple.true hf

theorem ask {g : σ → Except ε α} (h : ∀ s, P s → ∀ e, g s = .error e → X e) :
    FailsWith X P (ask g) := by
  intro s hs e s' hrun
  rw [run_ask] at hrun
  split at hrun <;> cases hrun
  exact h s hs e ‹_›

theorem ite {c : Prop} [Decidable c] {y : EStateM ε σ α} (hx : c → FailsWith X P x)
    (hy : ¬ c → FailsWith X P y) : FailsWith X P (if c then x else y) := by
  split
  · exact hx ‹_›
  · exact hy ‹_›

theorem onPart {get : σ → τ} {set : τ → σ → σ} {y : EStateM ε τ α}
    (h : FailsWith X (fun t => ∃ s, P s ∧ get s = t) y) : FailsWith X P (onPart get set y) := by
  intro s hs e s' hrun
  rw [run_onPart] at hrun
  split at hrun <;> cases hrun
  exact h (get s) ⟨s, hs, rfl⟩ e _ ‹_›

/-- A loop whose body keeps `P`. -/
theorem forM {l : List α} {g : α → EStateM ε σ PUnit} (hg : ∀ a ∈ l, FailsWith X P (g a))
    (hkeep : ∀ a ∈ l, Triple P (g a) (fun _ => P) E) : FailsWith X P (l.forM g) := by
  induction l with
  | nil => exact pure _
  | cons a l ih =>
    apply bind (hg a (by simp)) (hkeep a (by simp))
    intro _
    exact ih (fun b hb => hg b (by simp [hb])) fun b hb => hkeep b (by simp [hb])

end FailsWith

end Rspacefs.Lib
