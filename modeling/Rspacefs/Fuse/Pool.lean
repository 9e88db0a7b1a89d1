import Mathlib.Algebra.GroupWithZero.Nat
import Rspacefs.Fuse.Over
import Rspacefs.Lib.Run

/-!
# Reads and writes on the worker pool

`read` and `write` are not done on the dispatch thread: they look the handle up, and hand
the rest to a pool of workers (`pool.rs`). A worker takes the job at the head of the shared
queue, locks the handle, works on the open file behind it and replies. All other requests
run on the dispatch thread; `release` and `fsync` lock their handle too.

## Main definitions

* `Access`, `Job`, `Worker` — what is handed over, and what a worker is at
* `Pooled`, `Pooled.next` — the daemon with its pool, and what happens in it
* `Pooled.Proper` — a request on a handle comes after those before it are answered
* `Pooled.Inv` — the daemon is where the requests one at a time would have taken it, up to
  the buffers that jobs are to change

## Main results

* `Pooled.Inv.next` — every event keeps the invariant
* `offload_sequential` — replies and files are those of the requests one at a time
-/

namespace Rspacefs.Fuse

open Lib

variable {υ ℓ : Type} {size : Nat} {s : Fuse υ ℓ} {fh : Fh}

/-- What a job does to the open file behind its handle. -/
inductive Access
  | read (offset size : Nat)
  | write (offset : Nat) (data : Bytes)

namespace Access

/-- The request that asks for it. -/
def request (fh : Fh) : Access → Request
  | .read offset size => .read fh offset size
  | .write offset data => .write fh offset data

/-- The body of the job: the reply, and the open file after it. -/
def run : Access → OpenFile → Except Errno Reply × OpenFile
  | .read _ _, .passthrough backing => (.error .eio, .passthrough backing)
  | .read offset size, .streaming reader =>
    match reader.readToEnd with
    | .ok data => (.ok (.data (readBuffer data offset size)), .streaming reader)
    | .error _ => (.error .eio, .streaming reader)
  | .read offset size, .buffered path data dirty writable =>
    (.ok (.data (readBuffer data offset size)), .buffered path data dirty writable)
  | .write _ _, .passthrough backing => (.error .eacces, .passthrough backing)
  | .write _ _, .streaming reader => (.error .eacces, .streaming reader)
  | .write offset data, .buffered path buf dirty writable =>
    if writable then
      (.ok (.written data.length), .buffered path (writeBuffer buf offset data) true writable)
    else (.error .eacces, .buffered path buf dirty writable)

theorem isBuffered_run {file : OpenFile} (h : file.IsBuffered) (access : Access) :
    (access.run file).2.IsBuffered := by
  cases file with
  | passthrough backing => exact h.elim
  | streaming reader => exact h.elim
  | buffered path data dirty writable =>
    cases access with
    | read offset size => exact h
    | write offset data => cases writable <;> exact h

end Access

/-- The access a request asks for, and the handle. -/
def accessOf : Request → Option (Fh × Access)
  | .read fh offset size => some (fh, .read offset size)
  | .write fh offset data => some (fh, .write offset data)
  | _ => none

/-- A request that was handed over; `id` is its place among those submitted. -/
structure Job where
  id : Nat
  fh : Fh
  access : Access

/-- What a worker is at. -/
inductive Worker
  | idle
  /-- It took the job off the queue, and waits for the lock. -/
  | waiting (job : Job)
  /-- It holds the lock, and has the file. -/
  | holding (job : Job) (file : OpenFile)
  /-- It has replied, and still holds the lock. -/
  | leaving (fh : Fh)

namespace Worker

/-- The job that is not answered yet. -/
def job : Worker → Option Job
  | .waiting job | .holding job _ => some job
  | .idle | .leaving _ => none

/-- The handle that is locked. -/
def locked : Worker → Option Fh
  | .holding job _ => some job.fh
  | .leaving fh => some fh
  | .idle | .waiting _ => none

end Worker

/-- `ThreadPool::new` has at least one worker. -/
def poolSize (size : Nat) : Nat := max size 1

instance : NeZero (poolSize size) := ⟨by unfold poolSize; omega⟩

/-- The daemon with its pool. -/
structure Pooled (υ ℓ : Type) (size : Nat) where
  fuse : Fuse υ ℓ
  /-- The files of released handles; jobs may still refer to them. -/
  released : Fh → Option OpenFile
  queue : List Job
  workers : Fin (poolSize size) → Worker
  submitted : List Request
  /-- Every reply that was sent, with the place of its request. -/
  replies : List (Nat × Except Errno Reply)

/-- What happens next. -/
inductive Event (size : Nat)
  /-- The dispatch thread takes a request. -/
  | dispatch (r : Request)
  /-- A worker takes the job at the head of the queue. -/
  | pick (w : Fin (poolSize size))
  | lock (w : Fin (poolSize size))
  /-- The job is done, and replied to. -/
  | finish (w : Fin (poolSize size))
  | unlock (w : Fin (poolSize size))

namespace Pooled

def start (size : Nat) (root : LayerFS υ ℓ) (verifiedLayers : List Bool) (frames : Nat) :
    Pooled υ ℓ size where
  fuse := Fuse.new root verifiedLayers frames
  released := fun _ => none
  queue := []
  workers := fun _ => .idle
  submitted := []
  replies := []

/-- The open file a job on the handle refers to. -/
def file (p : Pooled υ ℓ size) (fh : Fh) : Option OpenFile :=
  (p.fuse.openFiles fh).or (p.released fh)

/-- Change the open file a job on the handle refers to. -/
def store (p : Pooled υ ℓ size) (fh : Fh) (file : OpenFile) : Pooled υ ℓ size :=
  if (p.fuse.openFiles fh).isSome then
    { p with fuse := { p.fuse with
        openFiles := Function.update p.fuse.openFiles fh (some file) } }
  else { p with released := Function.update p.released fh (some file) }

/-- A job is done: the file is stored, and the reply sent. -/
def complete (p : Pooled υ ℓ size) (job : Job) (result : Except Errno Reply × OpenFile) :
    Pooled υ ℓ size :=
  { p.store job.fh result.2 with replies := p.replies ++ [(job.id, result.1)] }

def setWorker (p : Pooled υ ℓ size) (w : Fin (poolSize size)) (worker : Worker) :
    Pooled υ ℓ size :=
  { p with workers := Function.update p.workers w worker }

def Locked (p : Pooled υ ℓ size) (fh : Fh) : Prop := ∃ w, (p.workers w).locked = some fh

instance (p : Pooled υ ℓ size) (fh : Fh) : Decidable (p.Locked fh) :=
  inferInstanceAs (Decidable (∃ w, (p.workers w).locked = some fh))

/-- The request counts as submitted, and is answered. -/
def reply (p : Pooled υ ℓ size) (r : Request) (reply : Except Errno Reply) : Pooled υ ℓ size :=
  { p with
    submitted := p.submitted ++ [r]
    replies := p.replies ++ [(p.submitted.length, reply)] }

/-- The request counts as submitted, and is left to the workers. -/
def execute (p : Pooled υ ℓ size) (fh : Fh) (access : Access) : Pooled υ ℓ size :=
  { p with
    submitted := p.submitted ++ [access.request fh]
    queue := p.queue ++ [⟨p.submitted.length, fh, access⟩] }

/-- `read` and `write`: without an open file the reply is sent at once. -/
def offload (p : Pooled υ ℓ size) (fh : Fh) (access : Access) : Pooled υ ℓ size :=
  match p.fuse.openFiles fh with
  | none => p.reply (access.request fh) (.error .ebadf)
  | some _ => p.execute fh access

variable [PhysicalFS υ] [PhysicalFS ℓ]

/-- A request that runs on the dispatch thread. -/
def inline (p : Pooled υ ℓ size) (r : Request) : Pooled υ ℓ size :=
  { p with
    fuse := next p.fuse r
    released := match r with
      | .release fh => Function.update p.released fh (p.file fh)
      | _ => p.released
    : Pooled υ ℓ size }.reply r (respond p.fuse r)

/-- The state after an event; what cannot happen yet changes nothing. -/
def next (p : Pooled υ ℓ size) : Event size → Pooled υ ℓ size
  | .dispatch r =>
    match accessOf r with
    | some (fh, access) => p.offload fh access
    | none =>
      -- `release` and `fsync` wait for the lock on their handle
      if ∃ fh ∈ handle r, p.Locked fh then p else p.inline r
  | .pick w =>
    match p.workers w, p.queue with
    | .idle, job :: queue => { p with queue := queue }.setWorker w (.waiting job)
    | _, _ => p
  | .lock w =>
    match p.workers w with
    | .waiting job =>
      if p.Locked job.fh then p else
        match p.file job.fh with
        | some file => p.setWorker w (.holding job file)
        | none => p
    | _ => p
  | .finish w =>
    match p.workers w with
    | .holding job file =>
      (p.complete job (job.access.run file)).setWorker w (.leaving job.fh)
    | _ => p
  | .unlock w =>
    match p.workers w with
    | .leaving _ => p.setWorker w .idle
    | _ => p

/-! ### What the clients keep to -/

/-- Every request on the handle so far is answered. -/
def Settled (p : Pooled υ ℓ size) (fh : Fh) : Prop :=
  ∀ i r, p.submitted[i]? = some r → handle r = some fh → ∃ reply, (i, reply) ∈ p.replies

omit [PhysicalFS υ] [PhysicalFS ℓ] in
/-- A request on a handle comes when those before it are answered, and reads and writes are
on writable handles. -/
def Proper (p : Pooled υ ℓ size) : Event size → Prop
  | .dispatch r => ∀ fh, handle r = some fh → p.Settled fh ∧
      ((accessOf r).isSome → ∀ file, p.fuse.openFiles fh = some file → file.IsBuffered)
  | _ => True

instance (p : Pooled υ ℓ size) (fh : Fh) : Decidable (p.Settled fh) :=
  decidable_of_iff (∀ i : Fin p.submitted.length, handle p.submitted[i] = some fh →
    ∃ q ∈ p.replies, q.1 = i) <| by
    refine ⟨fun h i r hr hhandle => ?_, fun h i hhandle => ?_⟩
    · obtain ⟨hi, rfl⟩ := List.getElem?_eq_some_iff.mp hr
      obtain ⟨⟨i, reply⟩, hmem, rfl⟩ := h ⟨i, hi⟩ hhandle
      exact ⟨reply, hmem⟩
    · obtain ⟨reply, hmem⟩ := h i _ (List.getElem?_eq_getElem i.isLt) hhandle
      exact ⟨_, hmem, rfl⟩

instance (p : Pooled υ ℓ size) (e : Event size) : Decidable (p.Proper e) :=
  match e with
  | .dispatch r => inferInstanceAs (Decidable (∀ fh, handle r = some fh → p.Settled fh ∧
      ((accessOf r).isSome → ∀ file, p.fuse.openFiles fh = some file → file.IsBuffered)))
  | .pick _ | .lock _ | .finish _ | .unlock _ => isTrue True.intro

end Pooled

/-! ### A request and its job -/

section Requests

theorem handle_request (fh : Fh) (access : Access) : handle (access.request fh) = some fh := by
  cases access <;> rfl

theorem accessOf_eq_some {r : Request} {access : Access} (h : accessOf r = some (fh, access)) :
    r = access.request fh := by
  cases r <;> cases h <;> rfl

theorem OnHandle.handle_eq {r : Request} (h : OnHandle fh r) : handle r = some fh := by
  cases r with
  | write fh' offset data => exact congrArg some h
  | release fh' => exact congrArg some h
  | fsync fh' => exact congrArg some h
  | _ => exact h.elim

variable [PhysicalFS υ] [PhysicalFS ℓ]

/-- How a request ends, from how its handler runs. -/
theorem respond_next_of_run {r : Request} {s' : Fuse υ ℓ} {reply : Except Errno Reply}
    (h : (step r).run s = match reply with
      | .ok reply => .ok reply s'
      | .error e => .error e s') : respond s r = reply ∧ next s r = s' := by
  rw [respond, next, finalState, h]
  cases reply <;> exact ⟨rfl, rfl⟩

/-- The request does to the state what the job does to the file. -/
theorem run_request {file : OpenFile} (hopen : s.openFiles fh = some file) (hfile : file.IsBuffered)
    (access : Access) : respond s (access.request fh) = (access.run file).1 ∧
      next s (access.request fh) = { s with
        openFiles := Function.update s.openFiles fh (some (access.run file).2) } := by
  have hfileOf : (fileOf fh).run s = .ok file s := by
    rw [fileOf, run_ask, hopen]
  have hsame : { s with openFiles := Function.update s.openFiles fh (some file) } = s := by
    rw [← hopen, Function.update_eq_self]
  cases file with
  | passthrough backing => exact hfile.elim
  | streaming reader => exact hfile.elim
  | buffered path buf dirty writable =>
    cases access with
    | read offset size =>
      refine respond_next_of_run (run_bind_eq_ok.mpr ⟨_, s, hfileOf, ?_⟩)
      exact congrArg (EStateM.Result.ok _) hsame.symm
    | write offset data =>
      refine respond_next_of_run ?_
      rw [show step (Access.request fh (.write offset data)) = write fh offset data from rfl, write,
        EStateM.run_bind, hfileOf]
      cases writable with
      | false => exact congrArg (EStateM.Result.error _) hsame.symm
      | true => rfl

/-- On a handle without a file it does nothing. -/
theorem run_request_unknown (hopen : s.openFiles fh = none) (access : Access) :
    respond s (access.request fh) = .error .ebadf ∧ next s (access.request fh) = s := by
  have hfileOf : (fileOf fh).run s = .error .ebadf s := by
    rw [fileOf, run_ask, hopen]
  refine respond_next_of_run ?_
  cases access with
  | read offset size =>
    rw [show step (Access.request fh (.read offset size)) = read fh offset size from rfl, read,
      EStateM.run_bind, hfileOf]
  | write offset data =>
    rw [show step (Access.request fh (.write offset data)) = write fh offset data from rfl, write,
      EStateM.run_bind, hfileOf]

end Requests

namespace Pooled

variable {p p' : Pooled υ ℓ size} {s₀ : Fuse υ ℓ} {h h' : Fh → Option OpenFile} {job : Job}
  {file : OpenFile} {r : Request}

/-! ### The invariant -/

/-- Where an unanswered job can be: in the queue, or with a worker. -/
abbrev Place (size : Nat) := Nat ⊕ Fin (poolSize size)

/-- The unanswered job at a place. -/
def jobAt (p : Pooled υ ℓ size) : Place size → Option Job
  | .inl i => p.queue[i]?
  | .inr w => (p.workers w).job

theorem jobAt_execute {access : Access} {a : Place size} {j : Job}
    (hj : (p.execute fh access).jobAt a = some j) :
    p.jobAt a = some j ∨ a = .inl p.queue.length ∧ j = ⟨p.submitted.length, fh, access⟩ := by
  cases a with
  | inr w => exact Or.inl hj
  | inl i =>
    rw [jobAt, Pooled.execute, List.getElem?_append] at hj
    split at hj
    · exact Or.inl hj
    · rename_i hi
      obtain ⟨hlt, rfl⟩ := List.getElem?_eq_some_iff.mp hj
      rw [List.length_singleton] at hlt
      exact Or.inr ⟨congrArg Sum.inl (by omega), List.getElem_singleton hlt⟩

theorem jobAt_of_jobAt {access : Access} {a : Place size} {j : Job} (hj : p.jobAt a = some j) :
    (p.execute fh access).jobAt a = some j := by
  cases a with
  | inr w => exact hj
  | inl i =>
    obtain ⟨hi, -⟩ := List.getElem?_eq_some_iff.mp hj
    exact (List.getElem?_append_left hi).trans hj

theorem jobAt_setWorker (p : Pooled υ ℓ size) (w : Fin (poolSize size)) (worker : Worker)
    (a : Place size) :
    (p.setWorker w worker).jobAt a = if a = .inr w then worker.job else p.jobAt a := by
  cases a with
  | inl i => rfl
  | inr w' =>
    change (Function.update p.workers w worker w').job = _
    by_cases heq : w' = w
    · subst heq
      rw [Function.update_self, if_pos rfl]
    · rw [Function.update_of_ne heq, if_neg fun h => heq (Sum.inr.inj h)]
      rfl

/-- A place before the end of a list with one more element. -/
theorem lt_concat {α : Type} {l : List α} {x : α} {i : Nat} (hi : i < (l ++ [x]).length) :
    i < l.length ∨ i = l.length := by
  rw [List.length_append, List.length_singleton] at hi
  omega

variable [PhysicalFS υ] [PhysicalFS ℓ]

/-- A job that will give the reply of its request, and leave the file `h` has. -/
structure Awaited (s₀ : Fuse υ ℓ) (h : Fh → Option OpenFile) (p : Pooled υ ℓ size) (job : Job) :
    Prop where
  request : p.submitted[job.id]? = some (job.access.request job.fh)
  unanswered : ∀ reply, (job.id, reply) ∉ p.replies
  result : ∃ file, p.fuse.openFiles job.fh = some file ∧ file.IsBuffered ∧
    h job.fh = some (job.access.run file).2 ∧
    respond (run s₀ (p.submitted.take job.id)) (job.access.request job.fh) =
      (job.access.run file).1

/-- The requests one at a time lead to the state of the daemon, with the files `h` behind
the handles that jobs are still to work on. -/
structure Inv (s₀ : Fuse υ ℓ) (h : Fh → Option OpenFile) (p : Pooled υ ℓ size) : Prop where
  issued : Issued p.fuse
  /-- One job a handle. -/
  alone : ∀ a b j k, p.jobAt a = some j → p.jobAt b = some k → j.fh = k.fh → a = b
  awaited : ∀ a j, p.jobAt a = some j → Awaited s₀ h p j
  owner : ∀ fh, (h fh).isSome → ∃ a j, p.jobAt a = some j ∧ j.fh = fh
  held : ∀ w job file, p.workers w = .holding job file → p.fuse.openFiles job.fh = some file
  sequential : run s₀ p.submitted = overlaid h p.fuse
  replied : ∀ i reply, (i, reply) ∈ p.replies →
    ∃ r, p.submitted[i]? = some r ∧ reply = respond (run s₀ (p.submitted.take i)) r
  once : (p.replies.map Prod.fst).Nodup
  /-- No request is lost. -/
  kept : ∀ i < p.submitted.length,
    (∃ reply, (i, reply) ∈ p.replies) ∨ ∃ a j, p.jobAt a = some j ∧ j.id = i

/-- Requests that are submitted later do not count. -/
theorem Awaited.of (ha : Awaited s₀ h p job) (hsub : p.submitted <+: p'.submitted)
    (hrep : ∀ reply, (job.id, reply) ∉ p'.replies)
    (hfile : p'.fuse.openFiles job.fh = p.fuse.openFiles job.fh) (hh : h' job.fh = h job.fh) :
    Awaited s₀ h' p' job := by
  obtain ⟨later, hlater⟩ := hsub
  obtain ⟨hid, -⟩ := List.getElem?_eq_some_iff.mp ha.request
  refine ⟨?_, hrep, ?_⟩
  · rw [← hlater, List.getElem?_append_left hid]
    exact ha.request
  · rw [hfile, hh, ← hlater, List.take_append_of_le_length hid.le]
    exact ha.result

/-- A request is on one handle. -/
theorem Awaited.id_ne {j : Job} (hj : Awaited s₀ h p j)
    (hjob : Awaited s₀ h p job) (hne : j.fh ≠ job.fh) : j.id ≠ job.id := by
  intro hid
  have hrequest := hj.request
  rw [hid, hjob.request] at hrequest
  have hhandle := congrArg handle (Option.some.inj hrequest)
  rw [handle_request, handle_request] at hhandle
  exact hne (Option.some.inj hhandle).symm

/-- A read or write on a handle without a file is answered like any other request. -/
theorem reply_eq_inline (hopen : p.fuse.openFiles fh = none) (access : Access) :
    p.inline (access.request fh) = p.reply (access.request fh) (.error .ebadf) := by
  obtain ⟨hrespond, hnext⟩ := run_request_unknown hopen access
  have hinline : p.inline (access.request fh) =
      { p with fuse := Fuse.next p.fuse (access.request fh) : Pooled υ ℓ size }.reply
        (access.request fh) (respond p.fuse (access.request fh)) := by
    cases access <;> rfl
  rw [hinline, hrespond, hnext]

namespace Inv

theorem fits (hi : Inv s₀ h p) : Fits h (files p.fuse) := by
  have hresult : ∀ fh file, h fh = some file → file.IsBuffered ∧
      ∃ file', p.fuse.openFiles fh = some file' ∧ file'.IsBuffered := by
    intro fh file hfile
    obtain ⟨a, j, hj, rfl⟩ := hi.owner fh (by rw [hfile]; rfl)
    obtain ⟨file', hopen, hbuffered, hh, -⟩ := (hi.awaited a j hj).result
    cases hfile.symm.trans hh
    exact ⟨j.access.isBuffered_run hbuffered, file', hopen, hbuffered⟩
  refine ⟨fun fh hfh => ?_, hresult⟩
  obtain ⟨file, hfile⟩ := Option.isSome_iff_exists.mp hfh
  obtain ⟨-, file', hopen, -⟩ := hresult fh file hfile
  exact hi.issued fh (by rw [hopen]; rfl)

/-- No job is to work on a handle whose requests are answered. -/
theorem settled (hi : Inv s₀ h p) (hfh : p.Settled fh) : h fh = none := by
  by_contra hne
  obtain ⟨a, j, hj, rfl⟩ := hi.owner fh (Option.isSome_iff_ne_none.mpr hne)
  have ha := hi.awaited a j hj
  obtain ⟨reply, hreply⟩ := hfh j.id _ ha.request (handle_request _ _)
  exact ha.unanswered reply hreply

/-- The places of answered requests. -/
theorem lt_of_mem_replies (hi : Inv s₀ h p) {i : Nat} {reply : Except Errno Reply}
    (hreply : (i, reply) ∈ p.replies) : i < p.submitted.length := by
  obtain ⟨r, hr, -⟩ := hi.replied i reply hreply
  exact (List.getElem?_eq_some_iff.mp hr).1

/-- A reply that was given stays the right one. -/
theorem replied_later (hi : Inv s₀ h p) (hsub : p.submitted <+: p'.submitted) {i : Nat}
    {reply : Except Errno Reply} (hreply : (i, reply) ∈ p.replies) :
    ∃ r, p'.submitted[i]? = some r ∧ reply = respond (run s₀ (p'.submitted.take i)) r := by
  obtain ⟨later, hlater⟩ := hsub
  obtain ⟨r, hr, hrespond⟩ := hi.replied i reply hreply
  have hid := hi.lt_of_mem_replies hreply
  refine ⟨r, ?_, ?_⟩
  · rw [← hlater, List.getElem?_append_left hid, hr]
  · rw [← hlater, List.take_append_of_le_length hid.le, hrespond]

/-- What is on the dispatch thread's own account leaves the files of jobs alone. -/
theorem openFiles_next (hi : Inv s₀ h p) (hr : ∀ fh, handle r = some fh → h fh = none)
    {a : Place size} {j : Job} (hj : p.jobAt a = some j) :
    (Fuse.next p.fuse r).openFiles j.fh = p.fuse.openFiles j.fh := by
  obtain ⟨file, hopen, -, hh, -⟩ := (hi.awaited a j hj).result
  refine (openFiles_frame (r := r) ⟨rfl, hi.issued _ (by rw [hopen]; rfl)⟩ fun hon => ?_).1
  rw [hr _ hon.handle_eq] at hh
  cases hh

/-- A request on the dispatch thread, on a handle without jobs. -/
theorem inline (hi : Inv s₀ h p) (hr : ∀ fh, handle r = some fh → h fh = none) :
    Inv s₀ h (p.inline r) := by
  have hrun : run s₀ (p.submitted ++ [r]) = Fuse.next (overlaid h p.fuse) r := by
    rw [run, List.foldl_append]
    exact congrArg (Fuse.next · r) hi.sequential
  -- the request is answered on the table without the jobs, as it would be on the other one
  have hprefix : p.submitted <+: (p.inline r).submitted := List.prefix_append _ _
  refine
    { issued := hi.issued.step r
      alone := hi.alone
      awaited := fun a j hj => ?_
      owner := hi.owner
      held := fun w job file hw => ?_
      sequential := hrun.trans (next_overlaid hi.fits hr)
      replied := fun i reply hreply => ?_
      once := ?_
      kept := fun i hlt => ?_ }
  · have ha := hi.awaited a j hj
    refine ha.of hprefix (fun reply hreply => ?_) (hi.openFiles_next hr hj) rfl
    rcases List.mem_append.mp hreply with hold | hnew
    · exact ha.unanswered reply hold
    · obtain ⟨hid, -⟩ := List.getElem?_eq_some_iff.mp ha.request
      have heq : j.id = p.submitted.length := congrArg Prod.fst (List.mem_singleton.mp hnew)
      exact Nat.lt_irrefl _ (heq ▸ hid)
  · have hj : p.jobAt (.inr w) = some job := by
      rw [jobAt, show p.workers w = .holding job file from hw]
      rfl
    exact (hi.openFiles_next hr hj).trans (hi.held w job file hw)
  · rcases List.mem_append.mp hreply with hold | hnew
    · exact hi.replied_later hprefix hold
    · cases List.mem_singleton.mp hnew
      refine ⟨r, List.getElem?_concat_length, ?_⟩
      rw [show (p.inline r).submitted = p.submitted ++ [r] from rfl, List.take_left, hi.sequential,
        respond_overlaid hi.fits hr]
  · rw [show (p.inline r).replies = p.replies ++ [(p.submitted.length, respond p.fuse r)] from rfl,
      List.map_append, List.map_singleton]
    refine List.Nodup.append hi.once (List.nodup_singleton _) ?_
    intro i hi' hlen
    cases List.mem_singleton.mp hlen
    obtain ⟨⟨i, reply⟩, hmem, rfl⟩ := List.mem_map.mp hi'
    exact Nat.lt_irrefl _ (hi.lt_of_mem_replies hmem)
  · rcases lt_concat hlt with hold | rfl
    · refine (hi.kept i hold).imp_left ?_
      rintro ⟨reply, hreply⟩
      exact ⟨reply, List.mem_append_left _ hreply⟩
    · exact Or.inl ⟨_, List.mem_append_right _ (List.mem_singleton_self _)⟩

/-- A read or write that is handed over, on a handle without jobs. -/
theorem execute (hi : Inv s₀ h p) (hfh : h fh = none) (hopen : p.fuse.openFiles fh = some file)
    (hfile : file.IsBuffered) (access : Access) :
    Inv s₀ (Function.update h fh (some (access.run file).2)) (p.execute fh access) := by
  have hover : (overlaid h p.fuse).openFiles fh = some file :=
    (overlaid_openFiles_of_none hfh).trans hopen
  obtain ⟨hrespond, hnext⟩ := run_request hover hfile access
  have hprefix : p.submitted <+: (p.execute fh access).submitted := List.prefix_append _ _
  -- the jobs are the new one, and those there were, which are on other handles
  have hat : ∀ a j, (p.execute fh access).jobAt a = some j → p.jobAt a = some j ∧ j.fh ≠ fh ∨
      a = .inl p.queue.length ∧ j = ⟨p.submitted.length, fh, access⟩ := by
    intro a j hj
    refine (jobAt_execute hj).imp_left fun hold => ⟨hold, ?_⟩
    rintro rfl
    obtain ⟨_, -, -, hh, -⟩ := (hi.awaited a j hold).result
    rw [hfh] at hh
    cases hh
  refine
    { issued := hi.issued
      alone := fun a b j k ha hb heq => ?_
      awaited := fun a j hj => ?_
      owner := fun fh' hfh' => ?_
      held := hi.held
      sequential := ?_
      replied := fun i reply hreply => hi.replied_later hprefix hreply
      once := hi.once
      kept := fun i hlt => ?_ }
  · rcases hat a j ha with ⟨ha, hja⟩ | ⟨rfl, rfl⟩ <;> rcases hat b k hb with ⟨hb, hkb⟩ | ⟨rfl, rfl⟩
    · exact hi.alone a b j k ha hb heq
    · exact absurd heq hja
    · exact absurd heq.symm hkb
    · rfl
  · rcases hat a j hj with ⟨hj, hne⟩ | ⟨rfl, rfl⟩
    · have ha := hi.awaited a j hj
      exact ha.of hprefix ha.unanswered rfl (Function.update_of_ne hne _ _)
    · refine ⟨List.getElem?_concat_length, fun reply hreply => ?_, file, hopen, hfile,
        Function.update_self _ _ _, ?_⟩
      · exact Nat.lt_irrefl _ (hi.lt_of_mem_replies hreply)
      · rw [show (p.execute fh access).submitted = p.submitted ++ [access.request fh] from rfl,
          List.take_left, hi.sequential, hrespond]
  · by_cases heq : fh' = fh
    · refine ⟨.inl p.queue.length, ⟨p.submitted.length, fh, access⟩, ?_, heq.symm⟩
      exact List.getElem?_concat_length
    · rw [Function.update_of_ne heq] at hfh'
      obtain ⟨a, j, hj, rfl⟩ := hi.owner fh' hfh'
      exact ⟨a, j, jobAt_of_jobAt hj, rfl⟩
  · rw [show (p.execute fh access).submitted = p.submitted ++ [access.request fh] from rfl, run,
      List.foldl_append]
    exact (congrArg (Fuse.next · _) hi.sequential).trans (hnext.trans (overlaid_update_some _ _).symm)
  · rcases lt_concat hlt with hold | rfl
    · refine (hi.kept i hold).imp_right ?_
      rintro ⟨a, j, hj, hid⟩
      exact ⟨a, j, jobAt_of_jobAt hj, hid⟩
    · exact Or.inr ⟨.inl p.queue.length, _, List.getElem?_concat_length, rfl⟩

/-- The jobs that are left when a worker has done its own are on other handles. -/
theorem jobAt_left (hi : Inv s₀ h p) {w : Fin (poolSize size)} (hjob : p.jobAt (.inr w) = some job)
    {a : Place size} {j : Job}
    (hj : (if a = .inr w then (Worker.leaving job.fh).job else p.jobAt a) = some j) :
    p.jobAt a = some j ∧ j.fh ≠ job.fh := by
  split at hj
  · cases hj
  · rename_i hne
    exact ⟨hj, fun heq => hne (hi.alone a _ j job hj hjob heq)⟩

/-- A job is done: the handle has the file the job leaves. -/
theorem complete (hi : Inv s₀ h p) {w : Fin (poolSize size)}
    (hw : p.workers w = .holding job file) :
    Inv s₀ (Function.update h job.fh none)
      ((p.complete job (job.access.run file)).setWorker w (.leaving job.fh)) := by
  have hopen := hi.held w job file hw
  have hjob : p.jobAt (.inr w) = some job := by
    rw [jobAt, hw]
    rfl
  have ha := hi.awaited _ _ hjob
  obtain ⟨file', hopen', hfile, hh, hrespond⟩ := ha.result
  cases hopen.symm.trans hopen'
  -- the handle is open while its job is held, so the store is an update at this handle
  rw [Pooled.complete, show p.store job.fh (job.access.run file).2 = { p with fuse := { p.fuse with
      openFiles := Function.update p.fuse.openFiles job.fh (some (job.access.run file).2) } } from
    if_pos (by rw [hopen]; rfl)]
  have hopens : ∀ j : Job, j.fh ≠ job.fh →
      Function.update p.fuse.openFiles job.fh (some (job.access.run file).2) j.fh =
        p.fuse.openFiles j.fh := fun j hne => Function.update_of_ne hne _ _
  -- a job that is still waited for is on another handle, which neither update touches
  refine
    { issued := fun fh hfh => ?_
      alone := fun a b j k ha hb heq => ?_
      awaited := fun a j hj => ?_
      owner := fun fh hfh => ?_
      held := fun w' job' file' hw' => ?_
      -- the one thread ran this request long ago, and the handle is now as it left it
      sequential := hi.sequential.trans (overlaid_update_none hh).symm
      replied := fun i reply hreply => ?_
      once := ?_
      kept := fun i hlt => ?_ }
  · by_cases heq : fh = job.fh
    · exact hi.issued fh (heq ▸ by rw [hopen]; rfl)
    · refine hi.issued fh ?_
      rwa [show Fuse.openFiles _ fh = _ from Function.update_of_ne heq _ _] at hfh
  · rw [jobAt_setWorker] at ha hb
    exact hi.alone a b j k (hi.jobAt_left hjob ha).1 (hi.jobAt_left hjob hb).1 heq
  · rw [jobAt_setWorker] at hj
    obtain ⟨hj, hne⟩ := hi.jobAt_left hjob hj
    have haj := hi.awaited a j hj
    refine haj.of List.prefix_rfl (fun reply hreply => ?_) (hopens j hne)
      (Function.update_of_ne hne _ _)
    rcases List.mem_append.mp hreply with hold | hnew
    · exact haj.unanswered reply hold
    · exact haj.id_ne ha hne (congrArg Prod.fst (List.mem_singleton.mp hnew))
  · by_cases heq : fh = job.fh
    · rw [heq, Function.update_self] at hfh
      cases hfh
    · rw [Function.update_of_ne heq] at hfh
      obtain ⟨a, j, hj, rfl⟩ := hi.owner fh hfh
      refine ⟨a, j, ?_, rfl⟩
      rw [jobAt_setWorker, if_neg]
      · exact hj
      · rintro rfl
        cases hj.symm.trans hjob
        exact heq rfl
  · have hj : Pooled.jobAt (p.setWorker w (.leaving job.fh)) (.inr w') = some job' := by
      rw [jobAt, show (p.setWorker w (.leaving job.fh)).workers w' = .holding job' file' from hw']
      rfl
    rw [jobAt_setWorker] at hj
    obtain ⟨hold, hne⟩ := hi.jobAt_left hjob hj
    have hworker : w' ≠ w := by
      rintro rfl
      cases hold.symm.trans hjob
      exact hne rfl
    exact (hopens job' hne).trans
      (hi.held w' job' file' ((Function.update_of_ne hworker _ _).symm.trans hw'))
  · rcases List.mem_append.mp hreply with hold | hnew
    · exact hi.replied i reply hold
    · cases List.mem_singleton.mp hnew
      exact ⟨_, ha.request, hrespond.symm⟩
  · refine (List.map_append (f := Prod.fst)).symm ▸ List.Nodup.append hi.once
      (List.nodup_singleton _) ?_
    intro i hold hnew
    cases List.mem_singleton.mp hnew
    obtain ⟨⟨i, reply⟩, hmem, rfl⟩ := List.mem_map.mp hold
    exact ha.unanswered reply hmem
  · rcases hi.kept i hlt with ⟨reply, hreply⟩ | ⟨a, j, hj, rfl⟩
    · exact Or.inl ⟨reply, List.mem_append_left _ hreply⟩
    · by_cases hself : a = .inr w
      · -- the reply that was waited for is the one just sent
        subst hself
        cases hj.symm.trans hjob
        exact Or.inl ⟨_, List.mem_append_right _ (List.mem_singleton_self _)⟩
      · refine Or.inr ⟨a, j, ?_, rfl⟩
        rw [jobAt_setWorker, if_neg hself]
        exact hj

/-- Jobs change their places only. -/
theorem move (hi : Inv s₀ h p) (place : Place size → Place size)
    (hinj : Function.Injective place) (hfuse : p'.fuse = p.fuse)
    (hsubmitted : p'.submitted = p.submitted) (hreplies : p'.replies = p.replies)
    (hat : ∀ a, p'.jobAt a = p.jobAt (place a))
    (hall : ∀ a j, p.jobAt a = some j → ∃ b, place b = a)
    (hheld : ∀ w job file, p'.workers w = .holding job file →
      p.workers w = .holding job file ∨ p.fuse.openFiles job.fh = some file) : Inv s₀ h p' := by
  -- every part of the invariant speaks of jobs by their places, and `place` is one to one
  refine
    { issued := hfuse ▸ hi.issued
      alone := fun a b j k ha hb heq => ?_
      awaited := fun a j hj => ?_
      owner := fun fh hfh => ?_
      held := fun w job file hw => ?_
      sequential := by rw [hsubmitted, hfuse, hi.sequential]
      replied := by
        rw [hreplies, hsubmitted]
        exact hi.replied
      once := hreplies ▸ hi.once
      kept := fun i hlt => ?_ }
  · rw [hat] at ha hb
    exact hinj (hi.alone _ _ j k ha hb heq)
  · rw [hat] at hj
    have ha := hi.awaited _ j hj
    exact ha.of (hsubmitted ▸ List.prefix_rfl) (hreplies ▸ ha.unanswered) (by rw [hfuse]) rfl
  · obtain ⟨a, j, hj, rfl⟩ := hi.owner fh hfh
    obtain ⟨b, rfl⟩ := hall a j hj
    exact ⟨b, j, (hat b).trans hj, rfl⟩
  · rw [hfuse]
    exact (hheld w job file hw).elim (hi.held w job file) id
  · rw [hsubmitted] at hlt
    rw [hreplies]
    refine (hi.kept i hlt).imp_right ?_
    rintro ⟨a, j, hj, hid⟩
    obtain ⟨b, rfl⟩ := hall a j hj
    exact ⟨b, j, (hat b).trans hj, hid⟩

/-- A worker goes on, with the same job. -/
theorem setWorker (hi : Inv s₀ h p) (w : Fin (poolSize size)) (worker : Worker)
    (hjob : worker.job = (p.workers w).job)
    (hheld : ∀ job file, worker = .holding job file → p.fuse.openFiles job.fh = some file) :
    Inv s₀ h (p.setWorker w worker) := by
  refine hi.move id Function.injective_id rfl rfl rfl (fun a => ?_) (fun a _ _ => ⟨a, rfl⟩) ?_
  · rw [jobAt_setWorker]
    split
    · rename_i ha
      rw [hjob, ha]
      rfl
    · rfl
  · intro w' job file hw'
    by_cases heq : w' = w
    · subst heq
      exact Or.inr (hheld job file ((Function.update_self _ _ _).symm.trans hw'))
    · exact Or.inl ((Function.update_of_ne heq _ _).symm.trans hw')

/-- A worker takes the first job of the queue. -/
theorem pick (hi : Inv s₀ h p) {w : Fin (poolSize size)} {queue : List Job}
    (hw : p.workers w = .idle) (hqueue : p.queue = job :: queue) :
    Inv s₀ h ({ p with queue := queue }.setWorker w (.waiting job)) := by
  -- where each job was: this worker has what was the head of the queue
  let place : Place size → Place size
    | .inl i => .inl (i + 1)
    | .inr w' => if w' = w then .inl 0 else .inr w'
  have hself : place (.inr w) = .inl 0 := if_pos rfl
  have hother : ∀ w', w' ≠ w → place (.inr w') = .inr w' := fun _ hne => if_neg hne
  refine hi.move place ?_ rfl rfl rfl ?_ ?_ ?_
  · rintro (i | w₁) (j | w₂) heq
    · exact congrArg Sum.inl (Nat.succ.inj (Sum.inl.inj heq))
    · by_cases h₂ : w₂ = w
      · rw [h₂, hself] at heq
        cases heq
      · rw [hother w₂ h₂] at heq
        cases heq
    · by_cases h₁ : w₁ = w
      · rw [h₁, hself] at heq
        cases heq
      · rw [hother w₁ h₁] at heq
        cases heq
    · by_cases h₁ : w₁ = w <;> by_cases h₂ : w₂ = w
      · rw [h₁, h₂]
      · rw [h₁, hself, hother w₂ h₂] at heq
        cases heq
      · rw [h₂, hself, hother w₁ h₁] at heq
        cases heq
      · rwa [hother w₁ h₁, hother w₂ h₂] at heq
  · intro a
    rw [jobAt_setWorker]
    rcases a with i | w'
    · rw [if_neg nofun]
      change queue[i]? = p.queue[i + 1]?
      rw [hqueue, List.getElem?_cons_succ]
    · by_cases heq : w' = w
      · rw [heq, if_pos rfl, hself]
        change some job = p.queue[0]?
        rw [hqueue, List.getElem?_cons_zero]
      · rw [if_neg fun h => heq (Sum.inr.inj h), hother w' heq]
        rfl
  · rintro ((_ | i) | w') j hj
    · exact ⟨.inr w, hself⟩
    · exact ⟨.inl i, rfl⟩
    · refine ⟨.inr w', hother w' ?_⟩
      rintro rfl
      rw [jobAt, hw] at hj
      cases hj
  · intro w' job' file hw'
    by_cases heq : w' = w
    · subst heq
      cases (Function.update_self _ _ _).symm.trans hw'
    · exact Or.inl ((Function.update_of_ne heq _ _).symm.trans hw')

/-- Every event of a proper run keeps the invariant. -/
theorem next (hi : Inv s₀ h p) {e : Event size} (he : p.Proper e) :
    ∃ h', Inv s₀ h' (p.next e) := by
  cases e with
  | dispatch r =>
    -- the handle of the request has no job left
    have hr : ∀ fh, handle r = some fh → h fh = none := fun fh hfh => hi.settled (he fh hfh).1
    unfold Pooled.next
    dsimp only
    split
    · rename_i fh access haccess
      cases accessOf_eq_some haccess
      have hfh := hr fh (handle_request fh access)
      unfold offload
      split
      · rename_i hopen
        exact ⟨h, reply_eq_inline hopen access ▸ hi.inline hr⟩
      · rename_i file hopen
        have hready := (he fh (handle_request fh access)).2 (by rw [haccess]; rfl) file hopen
        exact ⟨_, hi.execute hfh hopen hready access⟩
    · split
      · exact ⟨h, hi⟩
      · exact ⟨h, hi.inline hr⟩
  | pick w =>
    unfold Pooled.next
    dsimp only
    split
    · rename_i job queue hw hqueue
      exact ⟨h, hi.pick hw hqueue⟩
    · exact ⟨h, hi⟩
  | lock w =>
    unfold Pooled.next
    dsimp only
    split
    · rename_i job hw
      split
      · exact ⟨h, hi⟩
      · have hjob : p.jobAt (.inr w) = some job := by
          rw [jobAt, hw]
          rfl
        obtain ⟨file, hopen, -⟩ := (hi.awaited _ _ hjob).result
        have hfile : p.file job.fh = some file := by
          rw [Pooled.file, hopen, Option.some_or]
        rw [hfile]
        refine ⟨h, hi.setWorker w _ (by rw [hw]; rfl) ?_⟩
        rintro _ _ ⟨⟩
        exact hopen
    · exact ⟨h, hi⟩
  | finish w =>
    unfold Pooled.next
    dsimp only
    split
    · rename_i job file hw
      exact ⟨_, hi.complete hw⟩
    · exact ⟨h, hi⟩
  | unlock w =>
    unfold Pooled.next
    dsimp only
    split
    · rename_i fh hw
      exact ⟨h, hi.setWorker w _ (by rw [hw]; rfl) nofun⟩
    · exact ⟨h, hi⟩

theorem start (size : Nat) (root : LayerFS υ ℓ) (verifiedLayers : List Bool) (frames : Nat) :
    Inv (Fuse.new root verifiedLayers frames) (fun _ => none)
      (Pooled.start size root verifiedLayers frames) := by
  have hat : ∀ a, (Pooled.start size root verifiedLayers frames).jobAt a = none := by
    rintro (i | w)
    · rfl
    · rfl
  refine
    { issued := fun fh hfh => ?_
      alone := fun a b j k ha _ _ => ?_
      awaited := fun a j ha => ?_
      owner := nofun
      held := nofun
      sequential := ?_
      replied := nofun
      once := List.nodup_nil
      kept := nofun }
  · cases hfh
  · cases (hat a).symm.trans ha
  · cases (hat a).symm.trans ha
  · rfl

end Inv

/-! ### Handles apart -/

omit [PhysicalFS υ] [PhysicalFS ℓ] in
theorem file_store (p : Pooled υ ℓ size) {fh fh' : Fh} (hne : fh' ≠ fh) (file : OpenFile) :
    (p.store fh file).file fh' = p.file fh' := by
  unfold store
  split
  · exact congrArg (Option.or · _) (Function.update_of_ne hne _ _)
  · exact congrArg (Option.or _) (Function.update_of_ne hne _ _)

/-- The handle of the read or write an event carries on. -/
def accessed (p : Pooled υ ℓ size) : Event size → Option Fh
  | .dispatch r => (accessOf r).map (·.1)
  | .pick _ => p.queue.head?.map (·.fh)
  | .lock w | .finish w => (p.workers w).job.map (·.fh)
  | .unlock w => (p.workers w).locked

/-- Reads and writes leave the files behind other handles alone. -/
theorem file_next {e : Event size} (he : p.accessed e = some fh) {fh' : Fh} (hne : fh' ≠ fh) :
    (p.next e).file fh' = p.file fh' := by
  cases e with
  | dispatch r =>
    unfold Pooled.next
    dsimp only
    split
    · unfold offload
      split <;> rfl
    · rename_i haccess
      rw [accessed, haccess] at he
      cases he
  | pick w =>
    unfold Pooled.next
    dsimp only
    split <;> rfl
  | lock w =>
    unfold Pooled.next
    dsimp only
    split
    · split
      · rfl
      · split <;> rfl
    · rfl
  | finish w =>
    unfold Pooled.next
    dsimp only
    split
    · rename_i job file hw
      rw [accessed, hw] at he
      cases he
      exact file_store p hne _
    · rfl
  | unlock w =>
    unfold Pooled.next
    dsimp only
    split <;> rfl

/-- Whatever the workers do when: replies and the overlay are those of the requests one at
a time in the order they were submitted, and so is the buffer behind a handle when its
requests are answered; no request is answered twice or lost; and a read or write on one
handle leaves the files behind all others alone. -/
theorem offload_sequential (size : Nat) (root : LayerFS υ ℓ) (verifiedLayers : List Bool)
    (frames : Nat) (events : List (Event size))
    (hproper : EachStep Pooled.next Proper (Pooled.start size root verifiedLayers frames) events) :
    let s₀ := Fuse.new root verifiedLayers frames
    let p := events.foldl Pooled.next (Pooled.start size root verifiedLayers frames)
    (∀ i reply, (i, reply) ∈ p.replies →
      ∃ r, p.submitted[i]? = some r ∧ reply = respond (run s₀ (p.submitted.take i)) r) ∧
    (p.replies.map Prod.fst).Nodup ∧
    (∀ i < p.submitted.length,
      (∃ reply, (i, reply) ∈ p.replies) ∨ ∃ a job, p.jobAt a = some job ∧ job.id = i) ∧
    p.fuse.root = (run s₀ p.submitted).root ∧
    (∀ fh, p.Settled fh → p.fuse.openFiles fh = (run s₀ p.submitted).openFiles fh) ∧
    ∀ e fh fh', p.accessed e = some fh → fh' ≠ fh → (p.next e).file fh' = p.file fh' := by
  intro s₀ p
  obtain ⟨h, hi⟩ := hproper.invariant (I := fun p => ∃ h, Inv s₀ h p)
    (fun _ _ ⟨_, hi⟩ he => hi.next he) ⟨_, Inv.start size root verifiedLayers frames⟩
  refine ⟨hi.replied, hi.once, hi.kept, ?_, fun fh hsettled => ?_, fun _ _ _ he hne => file_next he hne⟩
  · rw [hi.sequential]
    rfl
  · rw [hi.sequential, overlaid_openFiles_of_none (hi.settled hsettled)]

/-- Two files are written to, and the second write is done before the first one. -/
def twoWrites : List (Event 2) :=
  [.dispatch (.create rootIno "a".toList ⟨.writeOnly, false, false⟩),
    .dispatch (.create rootIno "b".toList ⟨.writeOnly, false, false⟩),
    .dispatch (.write 1 0 [1]), .dispatch (.write 2 0 [2]), .pick 1, .pick 0, .lock 0, .lock 1,
    .finish 0, .unlock 0, .finish 1, .unlock 1, .dispatch (.fsync 1)]

theorem offload_sequential_twoWrites :
    let root : LayerFS Tree Tree := ⟨Tree.empty, []⟩
    let p := twoWrites.foldl Pooled.next (Pooled.start 2 root [false] 8)
    p.replies.map Prod.fst = [0, 1, 3, 2, 4] ∧ (p.replies.map Prod.fst).Nodup ∧
      p.fuse.root = (run (Fuse.new root [false] 8) p.submitted).root := by
  refine ⟨by decide, ?_⟩
  obtain ⟨-, honce, -, hroot, -⟩ :=
    offload_sequential 2 (⟨Tree.empty, []⟩ : LayerFS Tree Tree) [false] 8 twoWrites (by decide)
  exact ⟨honce, hroot⟩

end Pooled

end Rspacefs.Fuse
