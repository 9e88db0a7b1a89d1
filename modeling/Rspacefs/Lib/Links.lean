import Mathlib.Data.List.Infix

/-!
# Following links along a path

A path is walked component by component. A place that can be entered is entered; a link is
replaced by the steps it holds; anything else ends the walk, and only a last component may
stand there. What stands at a place is given by a function, so nothing is assumed of the tree
that is walked.

Links may lead in circles. `walkLinks` follows a bounded number of them and finds nothing when
there are more.

## Main definitions

* `PathStep`, `Turn` — what a component asks for, and what a place answers
* `walkLinks` — the place a path leads to; the last component is followed or not

## Main results

* `walkLinks_congr` — only links and what can be entered matter
* `walkLinks_of_followed` — without following the last component one stops there, or at a link
* `walkLinks_of_noJumpOn` — where no link is passed, a path is where it says
* `walkSteps_followed` — where there is none, it does not matter if the last one is followed
-/

namespace Rspacefs.Lib

/-- One component of a path. -/
inductive PathStep (α : Type*)
  | down (a : α)
  | up
  | stay
  deriving DecidableEq

/-- What a place answers to a walk that reaches it. -/
inductive Turn (α : Type*)
  | enter
  /-- A link, to be followed from the root or from the directory it stands in. -/
  | jump (fromRoot : Bool) (steps : List (PathStep α))
  | stop

variable {α : Type*} {turn turn' : List α → Turn α} {last : Bool}
  {next : List α → List (PathStep α) → Option (List α)}

/-- Walk on from `d`; `next` goes on behind a link. -/
def walkSteps (turn : List α → Turn α) (last : Bool)
    (next : List α → List (PathStep α) → Option (List α)) :
    List α → List (PathStep α) → Option (List α)
  | d, [] => some d
  | d, .stay :: rest => walkSteps turn last next d rest
  | d, .up :: rest => walkSteps turn last next d.dropLast rest
  | d, .down a :: rest => match turn (d ++ [a]) with
    | .enter => walkSteps turn last next (d ++ [a]) rest
    | .jump fromRoot steps =>
      -- the last component is followed only if `last` says so
      if rest.isEmpty && !last then some (d ++ [a])
      else next (if fromRoot then [] else d) (steps ++ rest)
    | .stop => if rest.isEmpty then some (d ++ [a]) else none

/-- The place a path leads to, passing fewer than `budget` links. -/
def walkLinks (turn : List α → Turn α) (last : Bool) :
    Nat → List α → List (PathStep α) → Option (List α)
  | 0 => fun _ _ => none
  | budget + 1 => walkSteps turn last (walkLinks turn last budget)

/-! ### What a walk depends on -/

theorem walkSteps_congr (h : ∀ p, turn' p = turn p) (d : List α) (steps : List (PathStep α)) :
    walkSteps turn' last next d steps = walkSteps turn last next d steps := by
  induction steps generalizing d with
  | nil => rfl
  | cons s rest ih =>
    cases s with
    | stay => exact ih d
    | up => exact ih d.dropLast
    | down a => rw [walkSteps, walkSteps, h, ih]

/-- Only links and what can be entered matter. -/
theorem walkLinks_congr (h : ∀ p, turn' p = turn p) (budget : Nat) :
    walkLinks turn' last budget = walkLinks turn last budget := by
  induction budget with
  | zero => rfl
  | succ budget ih =>
    funext d steps
    rw [walkLinks, walkLinks, ih, walkSteps_congr h]

/-! ### The last component -/

/-- Where a walk that does not follow the last component ends, when one that does ends at `p`. -/
def StopsAtOrBefore (turn : List α → Turn α) (o : Option (List α)) (p : List α) : Prop :=
  o = some p ∨ ∃ l fromRoot steps, o = some l ∧ turn l = .jump fromRoot steps

theorem walkSteps_of_followed {onward onward' : List α → List (PathStep α) → Option (List α)}
    (h : ∀ d steps p, onward d steps = some p → StopsAtOrBefore turn (onward' d steps) p)
    {d p : List α} {steps : List (PathStep α)} (hp : walkSteps turn true onward d steps = some p) :
    StopsAtOrBefore turn (walkSteps turn false onward' d steps) p := by
  induction steps generalizing d with
  | nil => exact Or.inl hp
  | cons s rest ih =>
    cases s with
    | stay => exact ih hp
    | up => exact ih hp
    | down a =>
      rw [walkSteps] at hp ⊢
      cases hturn : turn (d ++ [a]) with
      | enter =>
        rw [hturn] at hp
        exact ih hp
      -- a link at the end is where the walk without following stops; one before it is followed
      | jump fromRoot target =>
        rw [hturn] at hp
        dsimp only at hp ⊢
        rw [Bool.not_true, Bool.and_false, if_neg Bool.false_ne_true] at hp
        cases rest.isEmpty with
        | true => exact Or.inr ⟨d ++ [a], fromRoot, target, rfl, hturn⟩
        | false => exact h _ _ _ hp
      | stop =>
        rw [hturn] at hp
        exact Or.inl hp

/-- Without following the last component one stops there, or at a link. -/
theorem walkLinks_of_followed {budget : Nat} {d p : List α} {steps : List (PathStep α)}
    (hp : walkLinks turn true budget d steps = some p) :
    StopsAtOrBefore turn (walkLinks turn false budget d steps) p := by
  induction budget generalizing d p steps with
  | zero => cases hp
  | succ budget ih => exact walkSteps_of_followed (fun _ _ _ => ih) hp

/-! ### Paths that pass no link -/

/-- No link stands on the way to the end of `rest`. -/
def NoJumpOn (turn : List α → Turn α) (d rest : List α) : Prop :=
  ∀ r, r <+: rest → r ≠ [] → r ≠ rest → ∀ fromRoot steps, turn (d ++ r) ≠ .jump fromRoot steps

/-- Something that cannot be entered stands on the way to the end of `rest`. -/
def BlockedOn (turn : List α → Turn α) (d rest : List α) : Prop :=
  ∃ r, r <+: rest ∧ r ≠ rest ∧ turn (d ++ r) = .stop

variable {a : α} {d rest : List α}

theorem singleton_ne_cons (h : rest ≠ []) : [a] ≠ a :: rest := by
  intro heq
  exact h (List.cons.inj heq).2.symm

theorem append_singleton_append (d : List α) (a : α) (r : List α) :
    d ++ [a] ++ r = d ++ a :: r := by
  rw [List.append_assoc, List.singleton_append]

theorem NoJumpOn.tail (h : NoJumpOn turn d (a :: rest)) : NoJumpOn turn (d ++ [a]) rest := by
  intro r hr _ hne
  rw [append_singleton_append]
  apply h (a :: r) ((List.prefix_cons_inj a).mpr hr) (List.cons_ne_nil a r)
  intro heq
  exact hne (List.cons.inj heq).2

theorem BlockedOn.cons (h : BlockedOn turn (d ++ [a]) rest) : BlockedOn turn d (a :: rest) := by
  obtain ⟨r, hr, hne, hstop⟩ := h
  rw [append_singleton_append] at hstop
  refine ⟨a :: r, (List.prefix_cons_inj a).mpr hr, ?_, hstop⟩
  intro heq
  exact hne (List.cons.inj heq).2

theorem walkSteps_of_noJumpOn (h : NoJumpOn turn d rest) :
    walkSteps turn false next d (rest.map .down) = some (d ++ rest) ∨
      walkSteps turn false next d (rest.map .down) = none ∧ BlockedOn turn d rest := by
  induction rest generalizing d with
  | nil =>
    rw [List.append_nil]
    exact Or.inl rfl
  | cons a rest ih =>
    rw [List.map_cons, walkSteps]
    by_cases hrest : rest = []
    · -- the last component is there, whatever stands at it
      subst hrest
      left
      cases turn (d ++ [a]) <;> rfl
    · have hempty : (rest.map PathStep.down).isEmpty = false := by
        rw [List.isEmpty_eq_false_iff, ne_eq, List.map_eq_nil_iff]
        exact hrest
      have hfirst : [a] <+: a :: rest := List.prefix_append [a] rest
      have hproper : [a] ≠ a :: rest := singleton_ne_cons hrest
      cases hturn : turn (d ++ [a]) with
      | jump fromRoot steps =>
        exact absurd hturn (h [a] hfirst (List.cons_ne_nil a []) hproper fromRoot steps)
      | stop =>
        right
        rw [hempty, if_neg Bool.false_ne_true]
        exact ⟨rfl, [a], hfirst, hproper, hturn⟩
      | enter =>
        dsimp only
        rw [← append_singleton_append d a rest]
        exact (ih h.tail).imp id fun hnone => ⟨hnone.1, hnone.2.cons⟩

/-- Where there is no link at all, the last component may be followed or not. -/
theorem walkSteps_followed {next' : List α → List (PathStep α) → Option (List α)}
    (h : ∀ r, r <+: rest → r ≠ [] → ∀ fromRoot steps, turn (d ++ r) ≠ .jump fromRoot steps) :
    walkSteps turn true next d (rest.map .down) = walkSteps turn false next' d (rest.map .down) := by
  induction rest generalizing d with
  | nil => rfl
  | cons a rest ih =>
    have hrest := ih (d := d ++ [a]) fun r hr hne => by
      rw [append_singleton_append]
      exact h (a :: r) ((List.prefix_cons_inj a).mpr hr) (List.cons_ne_nil a r)
    rw [List.map_cons, walkSteps, walkSteps, hrest]
    cases hturn : turn (d ++ [a]) with
    | jump fromRoot steps =>
      exact absurd hturn (h [a] (List.prefix_append [a] rest) (List.cons_ne_nil a []) _ _)
    | enter => rfl
    | stop => rfl

/-- Where no link is passed, a path is where it says, unless it is blocked. -/
theorem walkLinks_of_noJumpOn {p : List α} (budget : Nat) (h : NoJumpOn turn [] p) :
    walkLinks turn false (budget + 1) [] (p.map .down) = some p ∨
      walkLinks turn false (budget + 1) [] (p.map .down) = none ∧ BlockedOn turn [] p :=
  walkSteps_of_noJumpOn h

end Rspacefs.Lib
