import Mathlib.Algebra.BigOperators.Fin
import Mathlib.Algebra.Order.BigOperators.Group.Finset
import Mathlib.Algebra.Order.Group.Multiset
import Rspacefs.Fuse.Pool

/-!
# The thread pool

`ThreadPool` of `rspacefs-fuse/src/pool.rs`. The workers share the receiver of a channel behind a
lock; a worker holds the lock while it waits for a job, and gives it back before it runs the job.
Dropping the pool closes the channel and joins the workers one after the other. A worker that
finds the channel closed and empty exits.

## Main definitions

* `ThreadPool.Worker`, `ThreadPool.Owner` — what a worker and the owner of the pool are at
* `ThreadPool.step?`, `ThreadPool.run` — one step of a thread, and a schedule
* `ThreadPool.Inv` — where the jobs are, and when workers leave
* `ThreadPool.work` — a bound on the steps to come

## Main results

* `Inv.step`, `work_step` — what every step keeps, and uses up
* `exists_step` — until the drop has returned, some thread can go on
* `jobs_run_once` — every schedule runs the jobs in order, each once, before the drop returns
-/

namespace Rspacefs.Fuse

/-- A worker of `spawn_worker`, between two of its steps. -/
inductive ThreadPool.Worker (J : Type)
  /-- It wants the lock of the receiver. -/
  | locking
  /-- It holds the lock, and waits for a job. -/
  | receiving
  /-- `recv` has returned, and the lock is still held. -/
  | received (job : Option J)
  | running (job : J)
  | exited

/-- The thread that owns the pool: it submits jobs and then drops the pool. -/
inductive ThreadPool.Owner (J : Type)
  | submitting (jobs : List J)
  /-- The channel is closed, and the first `k` workers are joined. -/
  | joining (k : Nat)
  | returned
  deriving DecidableEq

/-- The pool; what was taken off the queue and what has finished is recorded. -/
structure ThreadPool (J : Type) (size : Nat) where
  owner : ThreadPool.Owner J
  queue : List J
  workers : Fin (poolSize size) → ThreadPool.Worker J
  taken : List J
  finished : List J

namespace ThreadPool

variable {J : Type} {size : Nat}

/-- The threads that take steps. -/
inductive Actor (size : Nat)
  | owner
  | worker (i : Fin (poolSize size))
  deriving DecidableEq

namespace Worker

def isExited : Worker J → Bool
  | .exited => true
  | _ => false

/-- It holds the lock. -/
def holds : Worker J → Bool
  | .receiving | .received _ => true
  | _ => false

/-- It has found the channel closed. -/
def leaves : Worker J → Bool
  | .received none | .exited => true
  | _ => false

/-- The job it has and has not finished. -/
def job : Worker J → Multiset J
  | .received (some job) | .running job => {job}
  | _ => 0

/-- A bound on its steps without another job. -/
def work : Worker J → Nat
  | .locking => 3
  | .receiving => 2
  | .received none => 1
  | .received (some _) => 5
  | .running _ => 4
  | .exited => 0

end Worker

namespace Owner

/-- The jobs that are still to be submitted. -/
def todo : Owner J → List J
  | .submitting jobs => jobs
  | _ => []

/-- The sender is dropped. -/
def closed : Owner J → Bool
  | .submitting _ => false
  | _ => true

/-- A bound on its steps; a job that it submits is work for the workers, too. -/
def work (size : Nat) : Owner J → Nat
  | .submitting jobs => 5 * jobs.length + poolSize size + 2
  | .joining k => poolSize size - k + 1
  | .returned => 0

end Owner

/-- A pool that was just built, and the jobs that will be submitted before it is dropped. -/
def new (size : Nat) (jobs : List J) : ThreadPool J size :=
  ⟨.submitting jobs, [], fun _ => .locking, [], []⟩

/-- Worker `i` goes on as `w`, with the queue and the records as given. -/
def put (s : ThreadPool J size) (i : Fin (poolSize size)) (w : Worker J)
    (queue taken finished : List J) : ThreadPool J size :=
  { s with workers := Function.update s.workers i w, queue, taken, finished }

/-- The owner goes on as `o`. -/
def proceed (s : ThreadPool J size) (o : Owner J) (queue : List J) : ThreadPool J size :=
  { s with owner := o, queue }

/-- `execute` and `drop`; `none` where the owner has to wait. With no worker left the receiver is
gone, and a job that is sent is discarded. -/
def ownerStep (s : ThreadPool J size) : Option (ThreadPool J size) :=
  match s.owner with
  | .submitting (job :: jobs) =>
    if ∀ i, (s.workers i).isExited = true then some (s.proceed (.submitting jobs) s.queue)
    else some (s.proceed (.submitting jobs) (s.queue ++ [job]))
  | .submitting [] => some (s.proceed (.joining 0) s.queue)
  | .joining k =>
    if h : k < poolSize size then
      if (s.workers ⟨k, h⟩).isExited then some (s.proceed (.joining (k + 1)) s.queue) else none
    else some (s.proceed .returned s.queue)
  | .returned => none

/-- The loop of a worker; `none` where it has to wait, and when it has exited. -/
def workerStep (s : ThreadPool J size) (i : Fin (poolSize size)) : Option (ThreadPool J size) :=
  match s.workers i with
  | .locking =>
    if ∀ j, (s.workers j).holds = false then some (s.put i .receiving s.queue s.taken s.finished)
    else none
  | .receiving =>
    match s.queue with
    | job :: queue => some (s.put i (.received (some job)) queue (s.taken ++ [job]) s.finished)
    | [] => if s.owner.closed then some (s.put i (.received none) [] s.taken s.finished) else none
  | .received (some job) => some (s.put i (.running job) s.queue s.taken s.finished)
  | .received none => some (s.put i .exited s.queue s.taken s.finished)
  | .running job => some (s.put i .locking s.queue s.taken (s.finished ++ [job]))
  | .exited => none

def step? (s : ThreadPool J size) : Actor size → Option (ThreadPool J size)
  | .owner => s.ownerStep
  | .worker i => s.workerStep i

/-- A schedule, each of whose threads can go on when it is its turn. -/
def run (s : ThreadPool J size) (schedule : List (Actor size)) : Option (ThreadPool J size) :=
  schedule.foldlM step? s

/-- Where the jobs are, and when workers leave. -/
structure Inv (jobs : List J) (s : ThreadPool J size) : Prop where
  order : s.taken ++ s.queue ++ s.owner.todo = jobs
  accounted : (s.taken : Multiset J) = s.finished + ∑ i, (s.workers i).job
  exclusive : ∀ i j, (s.workers i).holds = true → (s.workers j).holds = true → i = j
  serving : s.owner.closed = false → ∀ i, (s.workers i).leaves = false
  drained : ∀ i, (s.workers i).leaves = true → s.queue = []
  joined : ∀ k, s.owner = .joining k → ∀ i : Fin (poolSize size), i.val < k →
    (s.workers i).isExited = true
  returned : s.owner = .returned → ∀ i, (s.workers i).isExited = true

/-- A bound on the steps to come. -/
def work (s : ThreadPool J size) : Nat :=
  s.owner.work size + 4 * s.queue.length + ∑ i, (s.workers i).work

variable {s s' : ThreadPool J size} {jobs : List J} {i : Fin (poolSize size)}

/-! ### One worker goes on -/

/-- What the workers have in sum, when one of them goes on. -/
theorem sum_put {M : Type} [AddCommMonoid M] (g : Worker J → M) (s : ThreadPool J size)
    (i : Fin (poolSize size)) (w : Worker J) (queue taken finished : List J) :
    (∑ j, g ((s.put i w queue taken finished).workers j)) + g (s.workers i) =
      (∑ j, g (s.workers j)) + g w := by
  have hupdate : (fun j => g ((s.put i w queue taken finished).workers j)) =
      Function.update (fun j => g (s.workers j)) i (g w) := by
    funext j
    exact Function.apply_update (fun _ => g) s.workers i w j
  rw [hupdate, Finset.sum_update_of_mem (Finset.mem_univ i), Finset.sdiff_singleton_eq_erase,
    ← Finset.add_sum_erase _ (fun j => g (s.workers j)) (Finset.mem_univ i)]
  ac_rfl

theorem workers_put_self (s : ThreadPool J size) (i : Fin (poolSize size)) (w : Worker J)
    (queue taken finished : List J) : (s.put i w queue taken finished).workers i = w :=
  Function.update_self ..

theorem workers_put_of_ne {j : Fin (poolSize size)} (h : j ≠ i) (s : ThreadPool J size)
    (w : Worker J) (queue taken finished : List J) :
    (s.put i w queue taken finished).workers j = s.workers j := Function.update_of_ne h ..

/-- What holds of a worker after one of them has gone on holds of its new state, or held before. -/
theorem workers_put_cases (test : Worker J → Bool) {j : Fin (poolSize size)} {w : Worker J}
    {queue taken finished : List J}
    (h : test ((s.put i w queue taken finished).workers j) = true) :
    j = i ∧ test w = true ∨ j ≠ i ∧ test (s.workers j) = true := by
  by_cases hji : j = i
  · rw [hji, workers_put_self] at h
    exact .inl ⟨hji, h⟩
  · rw [workers_put_of_ne hji] at h
    exact .inr ⟨hji, h⟩

/-- The jobs taken are those finished and those with a worker, if it is so for the worker that goes
on and for what it changes. -/
theorem Inv.accounted_put (h : Inv jobs s) {w : Worker J} {taken finished : List J}
    (hjobs : (taken : Multiset J) + (s.finished + (s.workers i).job) =
      s.taken + (finished + w.job)) (queue : List J) :
    (taken : Multiset J) =
      finished + ∑ j, ((s.put i w queue taken finished).workers j).job := by
  have hsum := sum_put Worker.job s i w queue taken finished
  rw [h.accounted] at hjobs
  have htotal : (taken : Multiset J) + (s.finished + (s.workers i).job) =
      finished + ∑ j, ((s.put i w queue taken finished).workers j).job +
        (s.finished + (s.workers i).job) := by
    calc (taken : Multiset J) + (s.finished + (s.workers i).job)
        = s.finished + finished + ((∑ j, (s.workers j).job) + w.job) := by
          rw [hjobs]
          ac_rfl
      _ = s.finished + finished +
            ((∑ j, ((s.put i w queue taken finished).workers j).job) + (s.workers i).job) := by
          rw [hsum]
      _ = _ := by ac_rfl
  exact add_right_cancel htotal

/-- A worker that goes on keeps the invariant: it leaves the jobs in order and has those it took,
takes the lock only if it is free, and leaves only a closed channel with an empty queue. -/
theorem Inv.put (h : Inv jobs s) (i : Fin (poolSize size)) {w : Worker J}
    {queue taken finished : List J} (horder : taken ++ queue = s.taken ++ s.queue)
    (hjobs : (taken : Multiset J) + (s.finished + (s.workers i).job) =
      s.taken + (finished + w.job))
    (hlock : w.holds = true → ∀ j, (s.workers j).holds = true → j = i)
    (hleave : w.leaves = true → s.owner.closed = true ∧ queue = [])
    (hempty : s.queue = [] → queue = []) (hstays : (s.workers i).isExited = false) :
    Inv jobs (s.put i w queue taken finished) where
  order := by
    change taken ++ queue ++ s.owner.todo = jobs
    rw [horder]
    exact h.order
  accounted := h.accounted_put hjobs queue
  exclusive j k hj hk := by
    rcases workers_put_cases Worker.holds hj with ⟨hji, hw⟩ | ⟨hji, hj⟩
    · rcases workers_put_cases Worker.holds hk with ⟨hki, -⟩ | ⟨hki, hk⟩
      · rw [hji, hki]
      · exact absurd (hlock hw k hk) hki
    · rcases workers_put_cases Worker.holds hk with ⟨hki, hw⟩ | ⟨-, hk⟩
      · exact absurd (hlock hw j hj) hji
      · exact h.exclusive j k hj hk
  serving hopen j := by
    have hopen : s.owner.closed = false := hopen
    by_contra hleaves
    rw [Bool.not_eq_false] at hleaves
    rcases workers_put_cases Worker.leaves hleaves with ⟨-, hw⟩ | ⟨-, hj⟩
    · have hclosed := (hleave hw).1
      rw [hopen] at hclosed
      cases hclosed
    · rw [h.serving hopen j] at hj
      cases hj
  drained j hj := by
    rcases workers_put_cases Worker.leaves hj with ⟨-, hw⟩ | ⟨-, hj⟩
    · exact (hleave hw).2
    · exact hempty (h.drained j hj)
  joined k hk j hj := by
    have hexited := h.joined k hk j hj
    have hji : j ≠ i := by
      intro hji
      rw [hji, hstays] at hexited
      cases hexited
    rw [workers_put_of_ne hji]
    exact hexited
  returned hreturned j := by
    have hexited := h.returned hreturned i
    rw [hstays] at hexited
    cases hexited

/-- A worker that has the lock may keep it. -/
theorem Inv.keepsLock (h : Inv jobs s) (hi : (s.workers i).holds = true) :
    ∀ j, (s.workers j).holds = true → j = i := fun j hj => h.exclusive j i hj hi

/-- What a worker does. -/
theorem workerStep_cases (hstep : s.workerStep i = some s') :
    (s.workers i = .locking ∧ (∀ j, (s.workers j).holds = false) ∧
      s' = s.put i .receiving s.queue s.taken s.finished) ∨
    (∃ job queue, s.workers i = .receiving ∧ s.queue = job :: queue ∧
      s' = s.put i (.received (some job)) queue (s.taken ++ [job]) s.finished) ∨
    (s.workers i = .receiving ∧ s.queue = [] ∧ s.owner.closed = true ∧
      s' = s.put i (.received none) [] s.taken s.finished) ∨
    (∃ job, s.workers i = .received (some job) ∧
      s' = s.put i (.running job) s.queue s.taken s.finished) ∨
    (s.workers i = .received none ∧ s' = s.put i .exited s.queue s.taken s.finished) ∨
    (∃ job, s.workers i = .running job ∧
      s' = s.put i .locking s.queue s.taken (s.finished ++ [job])) := by
  unfold ThreadPool.workerStep at hstep
  cases hw : s.workers i with
  | locking =>
    rw [hw] at hstep
    by_cases hfree : ∀ j, (s.workers j).holds = false
    · simp only [hfree, implies_true, if_true] at hstep
      exact .inl ⟨rfl, hfree, (Option.some_inj.mp hstep).symm⟩
    · simp only [hfree, if_false] at hstep
      cases hstep
  | receiving =>
    rw [hw] at hstep
    cases hqueue : s.queue with
    | cons job queue =>
      simp only [hqueue] at hstep
      exact .inr (.inl ⟨job, queue, rfl, rfl, (Option.some_inj.mp hstep).symm⟩)
    | nil =>
      simp only [hqueue] at hstep
      by_cases hclosed : s.owner.closed = true
      · rw [if_pos hclosed] at hstep
        exact .inr (.inr (.inl ⟨rfl, rfl, hclosed, (Option.some_inj.mp hstep).symm⟩))
      · rw [if_neg hclosed] at hstep
        cases hstep
  | received found =>
    rw [hw] at hstep
    cases found with
    | some job =>
      exact .inr (.inr (.inr (.inl ⟨job, rfl, (Option.some_inj.mp hstep).symm⟩)))
    | none =>
      exact .inr (.inr (.inr (.inr (.inl ⟨rfl, (Option.some_inj.mp hstep).symm⟩))))
  | running job =>
    rw [hw] at hstep
    exact .inr (.inr (.inr (.inr (.inr ⟨job, rfl, (Option.some_inj.mp hstep).symm⟩))))
  | exited =>
    rw [hw] at hstep
    cases hstep

/-- A worker that can go on has not exited. -/
theorem not_exited_of_workerStep (hstep : s.workerStep i = some s') :
    (s.workers i).isExited = false := by
  by_contra hexited
  have hw : s.workers i = .exited := by
    cases hw : s.workers i with
    | exited => rfl
    | locking | receiving | received | running =>
      rw [hw] at hexited
      exact absurd rfl hexited
  rw [ThreadPool.workerStep, hw] at hstep
  cases hstep

theorem Inv.workerStep (h : Inv jobs s) (hstep : s.workerStep i = some s') : Inv jobs s' := by
  have hstays := not_exited_of_workerStep hstep
  rcases workerStep_cases hstep with ⟨hw, hfree, rfl⟩ | ⟨job, queue, hw, hqueue, rfl⟩ |
    ⟨hw, hqueue, hclosed, rfl⟩ | ⟨job, hw, rfl⟩ | ⟨hw, rfl⟩ | ⟨job, hw, rfl⟩
  · refine h.put i rfl ?_ ?_ nofun id hstays
    · rw [hw]
      rfl
    · intro _ j hj
      rw [hfree j] at hj
      cases hj
  · refine h.put i ?_ ?_ ?_ nofun ?_ hstays
    · rw [hqueue, List.append_assoc]
      rfl
    · have hnone : (Worker.receiving : Worker J).job = 0 := rfl
      have hone : (Worker.received (some job)).job = {job} := rfl
      rw [hw, ← Multiset.coe_add, Multiset.coe_singleton, hnone, hone]
      ac_rfl
    · exact fun _ => h.keepsLock (by rw [hw]; rfl)
    · intro hnil
      rw [hqueue] at hnil
      cases hnil
  · refine h.put i ?_ ?_ ?_ (fun _ => ⟨hclosed, rfl⟩) (fun _ => rfl) hstays
    · rw [hqueue]
    · rw [hw]
      rfl
    · exact fun _ => h.keepsLock (by rw [hw]; rfl)
  · refine h.put i rfl ?_ nofun nofun id hstays
    rw [hw]
    rfl
  · -- it was told that the channel is closed, which was so only with nothing left in the queue
    have hleaves : (s.workers i).leaves = true := by
      rw [hw]
      rfl
    refine h.put i rfl ?_ nofun ?_ id hstays
    · rw [hw]
      rfl
    · intro _
      refine ⟨?_, h.drained i hleaves⟩
      by_contra hopen
      rw [h.serving (Bool.eq_false_iff.mpr hopen) i] at hleaves
      cases hleaves
  · refine h.put i rfl ?_ nofun nofun id hstays
    have hone : (Worker.running job).job = {job} := rfl
    have hnone : (Worker.locking : Worker J).job = 0 := rfl
    rw [hw, ← Multiset.coe_add, Multiset.coe_singleton, hone, hnone, add_zero]

/-! ### The owner goes on -/

theorem leaves_of_isExited {w : Worker J} (h : w.isExited = true) : w.leaves = true := by
  cases w with
  | exited => rfl
  | locking | receiving | received | running => cases h

/-- While the channel is open there is a worker to receive. -/
theorem Inv.exists_serving (h : Inv jobs s) (hopen : s.owner.closed = false) :
    ¬ ∀ i, (s.workers i).isExited = true := by
  intro hall
  have hleaves := leaves_of_isExited (hall 0)
  rw [h.serving hopen 0] at hleaves
  cases hleaves

theorem Inv.submit (h : Inv jobs s) {job : J} {todo : List J}
    (howner : s.owner = .submitting (job :: todo)) :
    Inv jobs (s.proceed (.submitting todo) (s.queue ++ [job])) where
  order := by
    have horder := h.order
    rw [howner] at horder
    change s.taken ++ (s.queue ++ [job]) ++ todo = jobs
    rw [← horder]
    simp [Owner.todo]
  accounted := h.accounted
  exclusive := h.exclusive
  serving _ := h.serving (by rw [howner]; rfl)
  drained j hj := by
    have hserving := h.serving (by rw [howner]; rfl) j
    have hj : (s.workers j).leaves = true := hj
    rw [hserving] at hj
    cases hj
  joined _ hk := nomatch hk
  returned hk := nomatch hk

theorem Inv.close (h : Inv jobs s) (howner : s.owner = .submitting []) :
    Inv jobs (s.proceed (.joining 0) s.queue) where
  order := by
    have horder := h.order
    rw [howner] at horder
    exact horder
  accounted := h.accounted
  exclusive := h.exclusive
  serving hopen := nomatch hopen
  drained := h.drained
  joined k hk j hj := by
    obtain rfl : 0 = k := Owner.joining.inj hk
    exact absurd hj (Nat.not_lt_zero _)
  returned hk := nomatch hk

theorem Inv.join (h : Inv jobs s) {k : Nat} (howner : s.owner = .joining k)
    (hk : k < poolSize size) (hexited : (s.workers ⟨k, hk⟩).isExited = true) :
    Inv jobs (s.proceed (.joining (k + 1)) s.queue) where
  order := by
    have horder := h.order
    rw [howner] at horder
    exact horder
  accounted := h.accounted
  exclusive := h.exclusive
  serving hopen := nomatch hopen
  drained := h.drained
  joined k' hk' j hj := by
    obtain rfl : k + 1 = k' := Owner.joining.inj hk'
    by_cases hlast : j.val = k
    · obtain rfl : j = ⟨k, hk⟩ := Fin.ext hlast
      exact hexited
    · exact h.joined k howner j (by omega)
  returned hk := nomatch hk

theorem Inv.finish (h : Inv jobs s) {k : Nat} (howner : s.owner = .joining k)
    (hk : ¬ k < poolSize size) : Inv jobs (s.proceed .returned s.queue) where
  order := by
    have horder := h.order
    rw [howner] at horder
    exact horder
  accounted := h.accounted
  exclusive := h.exclusive
  serving hopen := nomatch hopen
  drained := h.drained
  joined _ hk := nomatch hk
  returned _ j := h.joined k howner j (by omega)

/-- What the owner does, and that no job is discarded. -/
theorem Inv.ownerStep_cases (h : Inv jobs s) (hstep : s.ownerStep = some s') :
    (∃ job todo, s.owner = .submitting (job :: todo) ∧
      s' = s.proceed (.submitting todo) (s.queue ++ [job])) ∨
    (s.owner = .submitting [] ∧ s' = s.proceed (.joining 0) s.queue) ∨
    (∃ k, ∃ hk : k < poolSize size, s.owner = .joining k ∧
      (s.workers ⟨k, hk⟩).isExited = true ∧ s' = s.proceed (.joining (k + 1)) s.queue) ∨
    (∃ k, ¬ k < poolSize size ∧ s.owner = .joining k ∧ s' = s.proceed .returned s.queue) := by
  unfold ThreadPool.ownerStep at hstep
  cases howner : s.owner with
  | submitting todo =>
    rw [howner] at hstep
    cases todo with
    | nil => exact .inr (.inl ⟨rfl, (Option.some_inj.mp hstep).symm⟩)
    | cons job todo =>
      have hserving := h.exists_serving (by rw [howner]; rfl)
      simp only [hserving, if_false] at hstep
      exact .inl ⟨job, todo, rfl, (Option.some_inj.mp hstep).symm⟩
  | joining k =>
    rw [howner] at hstep
    by_cases hk : k < poolSize size
    · simp only [hk, dite_true] at hstep
      by_cases hexited : (s.workers ⟨k, hk⟩).isExited = true
      · rw [if_pos hexited] at hstep
        exact .inr (.inr (.inl ⟨k, hk, rfl, hexited, (Option.some_inj.mp hstep).symm⟩))
      · rw [if_neg hexited] at hstep
        cases hstep
    · simp only [hk, dite_false] at hstep
      exact .inr (.inr (.inr ⟨k, hk, rfl, (Option.some_inj.mp hstep).symm⟩))
  | returned =>
    rw [howner] at hstep
    cases hstep

/-! ### Every step -/

theorem inv_new (size : Nat) (jobs : List J) : Inv jobs (new size jobs) where
  order := rfl
  accounted := by
    have hnone : ∀ i, ((new size jobs).workers i).job = 0 := fun _ => rfl
    rw [Finset.sum_congr rfl fun i _ => hnone i, Finset.sum_const_zero]
    rfl
  exclusive _ _ hi := nomatch hi
  serving _ _ := rfl
  drained _ hi := nomatch hi
  joined _ hk := nomatch hk
  returned hk := nomatch hk

theorem Inv.step (h : Inv jobs s) {actor : Actor size} (hstep : s.step? actor = some s') :
    Inv jobs s' := by
  cases actor with
  | worker i => exact h.workerStep hstep
  | owner =>
    rcases h.ownerStep_cases hstep with ⟨job, todo, howner, rfl⟩ | ⟨howner, rfl⟩ |
      ⟨k, hk, howner, hexited, rfl⟩ | ⟨k, hk, howner, rfl⟩
    · exact h.submit howner
    · exact h.close howner
    · exact h.join howner hk hexited
    · exact h.finish howner hk

theorem Inv.run (h : Inv jobs s) {schedule : List (Actor size)}
    (hrun : s.run schedule = some s') : Inv jobs s' := by
  induction schedule generalizing s with
  | nil =>
    obtain rfl := Option.some_inj.mp hrun
    exact h
  | cons actor schedule ih =>
    obtain ⟨next, hstep, hrest⟩ := Option.bind_eq_some_iff.mp hrun
    exact ih (h.step hstep) hrest

/-! ### No schedule goes on for ever -/

theorem work_put (s : ThreadPool J size) (i : Fin (poolSize size)) {w : Worker J}
    {queue taken finished : List J}
    (h : w.work + 4 * queue.length < (s.workers i).work + 4 * s.queue.length) :
    (s.put i w queue taken finished).work < s.work := by
  have hsum := sum_put Worker.work s i w queue taken finished
  unfold work
  change s.owner.work size + 4 * queue.length + _ < _
  omega

theorem work_step (h : Inv jobs s) {actor : Actor size} (hstep : s.step? actor = some s') :
    s'.work < s.work := by
  cases actor with
  | worker i =>
    rcases workerStep_cases hstep with ⟨hw, -, rfl⟩ | ⟨job, queue, hw, hqueue, rfl⟩ |
      ⟨hw, hqueue, -, rfl⟩ | ⟨job, hw, rfl⟩ | ⟨hw, rfl⟩ | ⟨job, hw, rfl⟩
    all_goals
      apply work_put
      rw [hw]
      simp only [Worker.work]
    · omega
    · rw [hqueue, List.length_cons]
      omega
    · rw [hqueue]
      omega
    · omega
    · omega
    · omega
  | owner =>
    rcases h.ownerStep_cases hstep with ⟨job, todo, howner, rfl⟩ | ⟨howner, rfl⟩ |
      ⟨k, hk, howner, -, rfl⟩ | ⟨k, hk, howner, rfl⟩
    all_goals
      unfold work
      rw [howner]
      simp only [proceed, Owner.work, List.length_append, List.length_cons, List.length_nil]
      omega

theorem length_le_work (h : Inv jobs s) {schedule : List (Actor size)}
    (hrun : s.run schedule = some s') : schedule.length + s'.work ≤ s.work := by
  induction schedule generalizing s with
  | nil =>
    obtain rfl := Option.some_inj.mp hrun
    exact (Nat.zero_add _).le
  | cons actor schedule ih =>
    obtain ⟨next, hstep, hrest⟩ := Option.bind_eq_some_iff.mp hrun
    have hless := work_step h hstep
    have hlength := ih (h.step hstep) hrest
    rw [List.length_cons]
    omega

/-! ### No schedule gets stuck -/

/-- With the channel closed a worker that has not exited can go on, or the one that holds the lock
can. -/
theorem exists_workerStep (hclosed : s.owner.closed = true) (hi : (s.workers i).isExited = false) :
    ∃ j, (s.workerStep j).isSome = true := by
  -- receiving does not block once the channel is closed
  have hholder : ∀ j, (s.workers j).holds = true → (s.workerStep j).isSome = true := by
    intro j hj
    unfold ThreadPool.workerStep
    cases hw : s.workers j with
    | receiving =>
      cases s.queue with
      | nil =>
        simp only
        rw [if_pos hclosed]
        rfl
      | cons job queue => rfl
    | received found => cases found <;> rfl
    | locking | running | exited =>
      rw [hw] at hj
      cases hj
  by_cases hheld : ∃ j, (s.workers j).holds = true
  · obtain ⟨j, hj⟩ := hheld
    exact ⟨j, hholder j hj⟩
  · have hfree : ∀ j, (s.workers j).holds = false := by
      intro j
      exact Bool.eq_false_iff.mpr fun hj => hheld ⟨j, hj⟩
    refine ⟨i, ?_⟩
    have hfreei := hfree i
    unfold ThreadPool.workerStep
    cases hw : s.workers i with
    | locking =>
      simp only [hfree, implies_true, if_true]
      rfl
    | running job => rfl
    | exited =>
      rw [hw] at hi
      cases hi
    | receiving | received =>
      rw [hw] at hfreei
      cases hfreei

/-- Until the drop has returned, some thread can go on. -/
theorem exists_step (h : s.owner ≠ .returned) : ∃ actor, (s.step? actor).isSome = true := by
  by_cases howner : (s.ownerStep).isSome = true
  · exact ⟨.owner, howner⟩
  · have hblocked : ∃ i, s.owner.closed = true ∧ (s.workers i).isExited = false := by
      unfold ThreadPool.ownerStep at howner
      cases hstate : s.owner with
      | submitting todo =>
        rw [hstate] at howner
        cases todo with
        | nil => exact absurd rfl howner
        | cons job todo =>
          simp only at howner
          split at howner
          · exact absurd rfl howner
          · exact absurd rfl howner
      | joining k =>
        rw [hstate] at howner
        simp only at howner
        split at howner
        · rename_i hk
          split at howner
          · exact absurd rfl howner
          · rename_i hexited
            exact ⟨⟨k, hk⟩, rfl, Bool.eq_false_iff.mpr hexited⟩
        · exact absurd rfl howner
      | returned => exact absurd hstate h
    obtain ⟨i, hclosed, hi⟩ := hblocked
    obtain ⟨j, hj⟩ := exists_workerStep hclosed hi
    exact ⟨.worker j, hj⟩

/-! ### The jobs -/

theorem work_new (size : Nat) (jobs : List J) :
    (new size jobs).work = 5 * jobs.length + 4 * poolSize size + 2 := by
  have hlocking : ∀ i, ((new size jobs).workers i).work = 3 := fun _ => rfl
  have hsum : (∑ i, ((new size jobs).workers i).work) = poolSize size * 3 := by
    rw [Finset.sum_congr rfl fun i _ => hlocking i, Finset.sum_const, Finset.card_univ,
      Fintype.card_fin, smul_eq_mul]
  unfold work
  rw [hsum]
  simp only [new, Owner.work, List.length_nil]
  omega

/-- When the drop has returned, all jobs were taken and have finished. -/
theorem Inv.returned_jobs (h : Inv jobs s) (howner : s.owner = .returned) :
    s.taken = jobs ∧ s.finished.Perm jobs := by
  have hexited := h.returned howner
  have hqueue : s.queue = [] := h.drained 0 (leaves_of_isExited (hexited 0))
  have htaken : s.taken = jobs := by
    have horder := h.order
    rw [howner, hqueue] at horder
    simpa [Owner.todo] using horder
  have hnone : ∀ i, (s.workers i).job = 0 := by
    intro i
    have hi := hexited i
    cases hw : s.workers i with
    | exited => rfl
    | locking | receiving | received | running =>
      rw [hw] at hi
      cases hi
  have haccounted := h.accounted
  rw [Finset.sum_congr rfl fun i _ => hnone i, Finset.sum_const_zero, add_zero, htaken]
    at haccounted
  exact ⟨htaken, (Multiset.coe_eq_coe.mp haccounted).symm⟩

/-- In every schedule the jobs are taken in the order in which they are submitted, each of them
once, and are finished when the drop has returned; and every schedule comes to that, if some thread
that can go on always does. -/
theorem jobs_run_once (size : Nat) (jobs : List J) (schedule : List (Actor size))
    (s : ThreadPool J size) (hrun : (new size jobs).run schedule = some s) :
    s.taken <+: jobs ∧
      (s.taken : Multiset J) = s.finished + ∑ i, (s.workers i).job ∧
      (s.owner = .returned → s.taken = jobs ∧ s.finished.Perm jobs ∧
        ∀ i, (s.workers i).isExited = true) ∧
      (s.owner ≠ .returned → ∃ actor, (s.step? actor).isSome = true) ∧
      schedule.length ≤ 5 * jobs.length + 4 * poolSize size + 2 := by
  have h := (inv_new size jobs).run hrun
  refine ⟨?_, h.accounted, ?_, exists_step, ?_⟩
  · refine ⟨s.queue ++ s.owner.todo, ?_⟩
    rw [← List.append_assoc]
    exact h.order
  · intro howner
    obtain ⟨htaken, hfinished⟩ := h.returned_jobs howner
    exact ⟨htaken, hfinished, h.returned howner⟩
  · have hlength := length_le_work (inv_new size jobs) hrun
    rw [work_new] at hlength
    omega

/-- The channel is closed while the job is still in the queue. -/
def lateWorkers : List (Actor 2) :=
  let first := .worker ⟨0, by decide⟩
  let second := .worker ⟨1, by decide⟩
  [.owner, .owner, second, second, second, first, first, first, second, .owner, second, second,
    second, .owner, .owner]

theorem jobs_run_once_lateWorkers :
    ∃ s, (new 2 ["job"]).run lateWorkers = some s ∧ s.finished.Perm ["job"] := by
  have hreturned : ((new 2 ["job"]).run lateWorkers).map (·.owner) = some .returned := by decide
  obtain ⟨s, hrun, howner⟩ := Option.map_eq_some_iff.mp hreturned
  have h := jobs_run_once 2 ["job"] lateWorkers s hrun
  exact ⟨s, hrun, (h.2.2.1 howner).2.1⟩

end ThreadPool

end Rspacefs.Fuse
