import Rspacefs.Core.SameContent
import Rspacefs.Lib.Run
import Rspacefs.Pvc.Swap

/-!
# PVC mounts and the clones of their merged view

`rspacefs-pvc/src/mount.rs`, `swap.rs` and `pivot.rs` by reference: directories and locks
have identities, a mount and every clone of its merged view share one lock, and the lock
holds the root in use. `PvcMount::new` and `pivot_upper` are given with all their early
returns; after each of them the lock and the fields of the mount are compared.

A run interleaves pivots, calls on any clone, writes to files opened through one, and
changes that others make to the directories.

## Main definitions

* `World`, `Mount`, `Session` — directories and locks; a mount; a mount in use
* `Mount.new`, `pivotUpper`, `ViewOp.run` — the source's functions
* `Session.next` — one step of a run
* `Consistent` — what the lock holds is what the mount says
* `Pivoted` — a pivot took effect

## Main results

* `Consistent.step` — every step keeps the mount consistent
* `pivotUpper_error`, `pivotUpper_ok` — a pivot is all or nothing
* `pivots_consistent` — runs
-/

namespace Rspacefs.Pvc

open Lib

/-- A directory, and a lock, by reference. -/
abbrev DirId := Nat
abbrev LockId := Nat

/-- A `LayerFS` over a directory and lower layers. -/
structure Root (ℓ : Type) where
  upper : DirId
  lowers : List ℓ

/-- `RwLock` around a root. -/
structure Lock (ℓ : Type) where
  root : Root ℓ
  poisoned : Bool

structure World (υ ℓ : Type) where
  dirs : DirId → υ
  locks : List (Lock ℓ)

/-- A `VfsPath` over a `SwappableRoot`: clones share the lock. -/
structure SwappableRoot where
  inner : LockId
  deriving DecidableEq, Repr

abbrev PathBuf := List Char

structure PvcOptions (ℓ : Type) where
  accessMode : PvcAccessMode
  lifecycle : PvcLifecycle
  upper : DirId
  lowers : List ℓ
  upperPhysical : Option PathBuf

/-- A live PVC mount. -/
structure Mount (ℓ : Type) where
  accessMode : PvcAccessMode
  lifecycle : PvcLifecycle
  merged : SwappableRoot
  rootHandle : LockId
  upper : DirId
  upperPhysical : Option PathBuf
  lowers : List ℓ

structure PivotReport where
  oldUpperKept : Bool
  handlesOnOldUpper : Option Nat
  deriving DecidableEq, Repr

/-- True if the workload can write to this PVC. -/
def writable : PvcAccessMode → Bool
  | .empty | .readWriteOnce | .readWriteMany => true
  | .readOnly => false

variable {υ ℓ : Type}

namespace World

/-- Run a program on a directory. -/
def onDir {ε α : Type} (d : DirId) (x : EStateM ε υ α) : EStateM ε (World υ ℓ) α :=
  onPart (fun w => w.dirs d) (fun u w => { w with dirs := Function.update w.dirs d u }) x

/-- The filesystem that a root is. -/
def layers (w : World υ ℓ) (root : Root ℓ) : LayerFS υ ℓ := ⟨w.dirs root.upper, root.lowers⟩

/-- Run a program on the filesystem of a root. -/
def onRoot {ε α : Type} (root : Root ℓ) (x : EStateM ε (LayerFS υ ℓ) α) :
    EStateM ε (World υ ℓ) α :=
  onPart (fun w => w.layers root)
    (fun fs w => { w with dirs := Function.update w.dirs root.upper fs.upper }) x

/-- Store a new root behind a lock. -/
def storeRoot (handle : LockId) (root : Root ℓ) : EStateM PvcError (World υ ℓ) Unit := do
  let w ← get
  match w.locks[handle]? with
  | some ⟨_, false⟩ => set { w with locks := w.locks.set handle ⟨root, false⟩ }
  | _ => throw (.invalidArgument "pivot_upper: root handle lock poisoned")

/-- A thread panics while it holds a lock. -/
def poison (w : World υ ℓ) (handle : LockId) : World υ ℓ :=
  { w with locks := w.locks.modify handle fun l => { l with poisoned := true } }

end World

namespace Mount

variable [FileSystem υ]

/-- `create_dir` and `remove_dir` of a marker entry under a directory. -/
def probe (name : String) (d : DirId) : EStateM PvcError (World υ ℓ) Unit :=
  EStateM.adaptExcept .vfs (World.onDir d (PvcMount.probe name.toList))

/-- The constraints on access mode, lifecycle and lower layers. -/
def checkShape (opts : PvcOptions ℓ) : Except PvcError Unit :=
  if opts.accessMode = .readOnly ∧ opts.lifecycle ≠ .persistent then
    .error (.invalidArgument
      ("ReadOnly PVC must use Persistent lifecycle; got " ++ opts.lifecycle.debug))
  else match opts.accessMode with
    | .empty =>
      if opts.lowers.length = 0 then .ok ()
      else .error (.invalidArgument
        ("PvcAccessMode::Empty requires zero lowers, got " ++ toString opts.lowers.length))
    | .readOnly =>
      if opts.lowers.length = 0 then
        .error (.invalidArgument
          "PvcAccessMode::ReadOnly requires at least one lower (the content)")
      else .ok ()
    | .readWriteOnce | .readWriteMany => .ok ()

/-- For `ReadOnly` the upper may itself be a read-only stub, and is not probed. -/
def checkUpper (opts : PvcOptions ℓ) : EStateM PvcError (World υ ℓ) Unit :=
  if writable opts.accessMode then probe ".rspacefs-pvc-probe" opts.upper else pure ()

/-- `PvcMount::new`. -/
def new (opts : PvcOptions ℓ) : EStateM PvcError (World υ ℓ) (Mount ℓ) := do
  ask fun _ => checkShape opts
  checkUpper opts
  let handle ← modifyGet fun w =>
    (w.locks.length, { w with locks := w.locks ++ [⟨⟨opts.upper, opts.lowers⟩, false⟩] })
  return {
    accessMode := opts.accessMode
    lifecycle := opts.lifecycle
    merged := ⟨handle⟩
    rootHandle := handle
    upper := opts.upper
    upperPhysical := opts.upperPhysical
    lowers := opts.lowers }

end Mount

/-! ### The merged view -/

namespace SwappableRoot

variable [FileSystem υ] [FileSystem ℓ]

/-- `SwappableRoot::at`: the root in use. -/
def current (r : SwappableRoot) : EStateM VfsError (World υ ℓ) (Root ℓ) := ask fun w =>
  match w.locks[r.inner]? with
  | some ⟨root, false⟩ => .ok root
  | _ => .error (.other "swappable root lock poisoned")

/-- A method that goes to the root in use. -/
def delegate {α : Type} (r : SwappableRoot) (x : VfsM (LayerFS υ ℓ) α) :
    EStateM VfsError (World υ ℓ) α := do
  World.onRoot (← r.current) x

def existsAt (r : SwappableRoot) (path : Path) : EStateM VfsError (World υ ℓ) Bool :=
  r.delegate (ask (LayerFS.existsAt path))

def metadata (r : SwappableRoot) (path : Path) : EStateM VfsError (World υ ℓ) VfsMetadata :=
  r.delegate (ask (LayerFS.metadata path))

def openFile (r : SwappableRoot) (path : Path) : EStateM VfsError (World υ ℓ) Reader :=
  r.delegate (ask (LayerFS.openFile path))

def readDir (r : SwappableRoot) (path : Path) : EStateM VfsError (World υ ℓ) (List Name) :=
  r.delegate (ask (LayerFS.readDir path))

/-- `VfsPath::get_parent` over the merged view. -/
def getParent (r : SwappableRoot) (action : String) (path : Path) :
    EStateM VfsError (World υ ℓ) Unit := do
  if !(← r.existsAt path.dropLast) then
    throw (.other ("Could not " ++ action ++ ", parent directory does not exist"))
  else if (← r.metadata path.dropLast).fileType ≠ .directory then
    throw (.other ("Could not " ++ action ++ ", parent path is not a directory"))
  else pure ()

def createDir (r : SwappableRoot) (path : Path) : EStateM VfsError (World υ ℓ) Unit := do
  r.getParent "create directory" path
  r.delegate (VfsPath.createDir path)

/-- A writer keeps the root it came from. -/
def createFile (r : SwappableRoot) (path : Path) :
    EStateM VfsError (World υ ℓ) (Root ℓ × Writer) := do
  r.getParent "create file" path
  let root ← r.current
  return (root, ← World.onRoot root (VfsPath.createFile path))

def appendFile (r : SwappableRoot) (path : Path) :
    EStateM VfsError (World υ ℓ) (Root ℓ × Writer) := do
  let root ← r.current
  return (root, ← World.onRoot root (LayerFS.appendFile path))

def removeFile (r : SwappableRoot) (path : Path) : EStateM VfsError (World υ ℓ) Unit :=
  r.delegate (LayerFS.removeFile path)

def removeDir (r : SwappableRoot) (path : Path) : EStateM VfsError (World υ ℓ) Unit :=
  r.delegate (LayerFS.removeDir path)

/-- The check that `VfsPath` makes before it copies or moves. -/
def unlessThere (r : SwappableRoot) (dest : Path) (x : VfsM (LayerFS υ ℓ) Unit) :
    EStateM VfsError (World υ ℓ) Unit := do
  if ← r.existsAt dest then throw (.other "Destination exists already") else r.delegate x

def copyFile (r : SwappableRoot) (src dest : Path) : EStateM VfsError (World υ ℓ) Unit :=
  r.unlessThere dest (VfsPath.copyFile src dest)

def moveFile (r : SwappableRoot) (src dest : Path) : EStateM VfsError (World υ ℓ) Unit :=
  r.unlessThere dest (VfsPath.moveFile src dest)

def moveDir (r : SwappableRoot) (frames : Nat) (src dest : Path) :
    EStateM VfsError (World υ ℓ) Unit :=
  r.unlessThere dest (VfsPath.moveDir frames src dest)

end SwappableRoot

/-- A call on the merged view. -/
inductive ViewOp
  | existsAt (path : Path)
  | metadata (path : Path)
  | openFile (path : Path)
  | readDir (path : Path)
  | createDir (path : Path)
  | createFile (path : Path)
  | appendFile (path : Path)
  | removeFile (path : Path)
  | removeDir (path : Path)
  | copyFile (src dest : Path)
  | moveFile (src dest : Path)
  | moveDir (frames : Nat) (src dest : Path)
  deriving DecidableEq, Repr

inductive ViewReply (ℓ : Type)
  | done
  | found (b : Bool)
  | metadata (md : VfsMetadata)
  | reader (reader : Reader)
  | names (names : List Name)
  | writer (root : Root ℓ) (writer : Writer)

def ViewOp.run [FileSystem υ] [FileSystem ℓ] (r : SwappableRoot) :
    ViewOp → EStateM VfsError (World υ ℓ) (ViewReply ℓ)
  | .existsAt path => .found <$> r.existsAt path
  | .metadata path => .metadata <$> r.metadata path
  | .openFile path => .reader <$> r.openFile path
  | .readDir path => .names <$> r.readDir path
  | .createDir path => (fun _ => .done) <$> r.createDir path
  | .createFile path => (fun w => .writer w.1 w.2) <$> r.createFile path
  | .appendFile path => (fun w => .writer w.1 w.2) <$> r.appendFile path
  | .removeFile path => (fun _ => .done) <$> r.removeFile path
  | .removeDir path => (fun _ => .done) <$> r.removeDir path
  | .copyFile src dest => (fun _ => .done) <$> r.copyFile src dest
  | .moveFile src dest => (fun _ => .done) <$> r.moveFile src dest
  | .moveDir frames src dest => (fun _ => .done) <$> r.moveDir frames src dest

/-! ### A mount in use -/

/-- A mount, the clones of its merged view, and the writers that were opened through
them: each keeps the root it came from. -/
structure Session (υ ℓ : Type) where
  world : World υ ℓ
  pvc : Mount ℓ
  clones : List SwappableRoot
  writers : List (Root ℓ × Writer)

namespace Session

/-- A program on the directories and locks. -/
def onWorld {ε α : Type} (x : EStateM ε (World υ ℓ) α) : EStateM ε (Session υ ℓ) α :=
  onPart world (fun w s => { s with world := w }) x

/-- Which mounts can be pivoted. -/
def checkPivot (pvc : Mount ℓ) : Except PvcError Unit :=
  -- a read-only mount has no writable upper to swap
  if pvc.accessMode = .readOnly then
    .error (.invalidArgument "pivot_upper not allowed on a ReadOnly PVC")
  else if pvc.lifecycle ≠ .ephemeralThenPersistent then
    .error (.invalidArgument
      ("pivot_upper requires lifecycle EphemeralThenPersistent; got " ++ pvc.lifecycle.debug))
  else .ok ()

/-- `pivot_upper`. -/
def pivotUpper [FileSystem υ] (newUpper : DirId) (newUpperPhysical : Option PathBuf)
    (handlesOnOldUpper : Option Nat) : EStateM PvcError (Session υ ℓ) PivotReport := do
  let s ← get
  ask fun _ => checkPivot s.pvc
  onWorld (Mount.probe ".rspacefs-pvc-pivot-probe" newUpper)
  onWorld (World.storeRoot s.pvc.rootHandle ⟨newUpper, s.pvc.lowers⟩)
  modify fun s => { s with
    pvc := { s.pvc with upper := newUpper, upperPhysical := newUpperPhysical } }
  return ⟨true, handlesOnOldUpper⟩

/-- The merged view and its clones. -/
def handles (s : Session υ ℓ) : List SwappableRoot := s.pvc.merged :: s.clones

/-- The root that a clone finds. -/
def behind (s : Session υ ℓ) (r : SwappableRoot) : Option (Root ℓ) :=
  s.world.locks[r.inner]?.map Lock.root

/-- A call through a clone; a writer is kept. -/
def call [FileSystem υ] [FileSystem ℓ] (k : Nat) (op : ViewOp) :
    EStateM VfsError (Session υ ℓ) (ViewReply ℓ) := do
  let s ← get
  match s.handles[k]? with
  | none => throw .fileNotFound
  | some r =>
    let reply ← onWorld (op.run r)
    match reply with
    | .writer root writer => modify fun s => { s with writers := s.writers ++ [(root, writer)] }
    | _ => pure ()
    return reply

/-- `write_all` on an open writer. -/
def write [FileSystem υ] [FileSystem ℓ] (k : Nat) (bytes : Bytes) :
    EStateM VfsError (Session υ ℓ) Unit := do
  let s ← get
  match s.writers[k]? with
  | none => throw .fileNotFound
  | some (root, writer) =>
    onWorld (World.onRoot root (FileSystem.writeAll writer bytes : VfsM (LayerFS υ ℓ) Unit))

/-- One step of a run. -/
inductive Step (υ : Type)
  | pivot (newUpper : DirId) (newUpperPhysical : Option PathBuf) (handlesOnOldUpper : Option Nat)
  | clone (k : Nat)
  | call (k : Nat) (op : ViewOp)
  | write (k : Nat) (bytes : Bytes)
  /-- Others change a directory. -/
  | outside (d : DirId) (content : υ)
  /-- A thread panics while it holds the lock. -/
  | poison

def next [FileSystem υ] [FileSystem ℓ] (s : Session υ ℓ) : Step υ → Session υ ℓ
  | .pivot newUpper physical onOld => finalState (pivotUpper newUpper physical onOld) s
  | .clone k => { s with clones := s.clones ++ s.handles[k]?.toList }
  | .call k op => finalState (call k op) s
  | .write k bytes => finalState (write k bytes) s
  | .outside d content =>
    { s with world := { s.world with dirs := Function.update s.world.dirs d content } }
  | .poison => { s with world := s.world.poison s.pvc.rootHandle }

/-- What the lock holds is what the mount says, and every clone finds it. -/
structure Consistent (s : Session υ ℓ) : Prop where
  shared : ∀ r ∈ s.handles, r.inner = s.pvc.rootHandle
  root : ∃ poisoned, s.world.locks[s.pvc.rootHandle]? =
    some ⟨⟨s.pvc.upper, s.pvc.lowers⟩, poisoned⟩

/-- The mount, the locks and the clones. -/
def shared (s : Session υ ℓ) : Mount ℓ × List (Lock ℓ) × List SwappableRoot :=
  (s.pvc, s.world.locks, s.clones)

variable {s s' : Session υ ℓ}

theorem Consistent.of_shared (h : Consistent s) (hs : s'.shared = s.shared) : Consistent s' := by
  obtain ⟨hpvc, hrest⟩ := Prod.mk.inj hs
  obtain ⟨hlocks, hclones⟩ := Prod.mk.inj hrest
  constructor
  · rw [handles, hpvc, hclones]
    exact h.shared
  · rw [hpvc, hlocks]
    exact h.root

/-! ### Programs that leave the locks alone -/

section Keeps

variable {ε α : Type}

theorem keeps_onDir (d : DirId) (x : EStateM ε υ α) :
    Keeps World.locks (World.onDir d x : EStateM ε (World υ ℓ) α) :=
  Keeps.onPart fun _ _ => rfl

theorem keeps_onRoot (root : Root ℓ) (x : EStateM ε (LayerFS υ ℓ) α) :
    Keeps World.locks (World.onRoot root x) :=
  Keeps.onPart fun _ _ => rfl

/-- What keeps the locks keeps the mount and its clones. -/
theorem keeps_onWorld {x : EStateM ε (World υ ℓ) α} (h : Keeps World.locks x) :
    Keeps shared (onWorld x) := by
  intro b s hs
  have hkeep := h s.world.locks s.world rfl
  rw [onWorld, run_onPart]
  cases hrun : x.run s.world with
  | ok a w =>
    rw [hrun] at hkeep
    rw [← hs]
    exact congrArg (fun locks => (s.pvc, locks, s.clones)) hkeep
  | error e w =>
    rw [hrun] at hkeep
    rw [← hs]
    exact congrArg (fun locks => (s.pvc, locks, s.clones)) hkeep

theorem keeps_current (r : SwappableRoot) :
    Keeps World.locks (r.current : EStateM VfsError (World υ ℓ) (Root ℓ)) :=
  Keeps.ask _

theorem keeps_delegate (r : SwappableRoot) (x : VfsM (LayerFS υ ℓ) α) :
    Keeps World.locks (r.delegate x) :=
  (keeps_current r).bind fun root => keeps_onRoot root x

variable [FileSystem υ]

theorem keeps_probe (name : String) (d : DirId) :
    Keeps World.locks (Mount.probe name d : EStateM PvcError (World υ ℓ) Unit) :=
  (keeps_onDir d _).adaptExcept _

variable [FileSystem ℓ]

theorem keeps_getParent (r : SwappableRoot) (action : String) (path : Path) :
    Keeps World.locks (r.getParent action path : EStateM VfsError (World υ ℓ) Unit) := by
  apply Keeps.bind (keeps_delegate r _)
  intro found
  refine Keeps.ite (Keeps.throw _) ?_
  apply Keeps.bind (keeps_delegate r _)
  intro md
  exact Keeps.ite (Keeps.throw _) (Keeps.pure _)

theorem keeps_unlessThere (r : SwappableRoot) (dest : Path) (x : VfsM (LayerFS υ ℓ) Unit) :
    Keeps World.locks (r.unlessThere dest x) := by
  apply Keeps.bind (keeps_delegate r _)
  intro found
  exact Keeps.ite (Keeps.throw _) (keeps_delegate r x)

/-- A call on the merged view works on directories only. -/
theorem keeps_run (r : SwappableRoot) (op : ViewOp) :
    Keeps World.locks (op.run r : EStateM VfsError (World υ ℓ) (ViewReply ℓ)) := by
  cases op with
  | existsAt path => exact (keeps_delegate r _).map _
  | metadata path => exact (keeps_delegate r _).map _
  | openFile path => exact (keeps_delegate r _).map _
  | readDir path => exact (keeps_delegate r _).map _
  | createDir path =>
    refine Keeps.map ?_ _
    exact (keeps_getParent r _ path).bind fun _ => keeps_delegate r _
  | createFile path =>
    refine Keeps.map ?_ _
    apply Keeps.bind (keeps_getParent r _ path)
    intro _
    apply Keeps.bind (keeps_current r)
    intro root
    exact (keeps_onRoot root _).bind fun writer => Keeps.pure _
  | appendFile path =>
    refine Keeps.map ?_ _
    apply Keeps.bind (keeps_current r)
    intro root
    exact (keeps_onRoot root _).bind fun writer => Keeps.pure _
  | removeFile path => exact (keeps_delegate r _).map _
  | removeDir path => exact (keeps_delegate r _).map _
  | copyFile src dest => exact (keeps_unlessThere r dest _).map _
  | moveFile src dest => exact (keeps_unlessThere r dest _).map _
  | moveDir frames src dest => exact (keeps_unlessThere r dest _).map _

theorem keeps_call (k : Nat) (op : ViewOp) :
    Keeps shared (call k op : EStateM VfsError (Session υ ℓ) (ViewReply ℓ)) := by
  apply Keeps.bind Keeps.get
  intro s
  cases s.handles[k]? with
  | none => exact Keeps.throw _
  | some r =>
    apply Keeps.bind (keeps_onWorld (keeps_run r op))
    intro reply
    -- only a writer is kept
    cases reply with
    | writer root writer => exact Keeps.bind (Keeps.modify fun _ => rfl) fun _ => Keeps.pure _
    | done => exact Keeps.bind (Keeps.pure _) fun _ => Keeps.pure _
    | found b => exact Keeps.bind (Keeps.pure _) fun _ => Keeps.pure _
    | metadata md => exact Keeps.bind (Keeps.pure _) fun _ => Keeps.pure _
    | reader reader => exact Keeps.bind (Keeps.pure _) fun _ => Keeps.pure _
    | names names => exact Keeps.bind (Keeps.pure _) fun _ => Keeps.pure _

theorem keeps_write (k : Nat) (bytes : Bytes) :
    Keeps shared (write k bytes : EStateM VfsError (Session υ ℓ) Unit) := by
  apply Keeps.bind Keeps.get
  intro s
  cases s.writers[k]? with
  | none => exact Keeps.throw _
  | some opened => exact keeps_onWorld (keeps_onRoot opened.1 _)

end Keeps

/-! ### A pivot -/

section Pivot

variable {d : DirId} {physical : Option PathBuf} {onOld : Option Nat}

/-- A new root is stored, or nothing changes. -/
theorem storeRoot_error {handle : LockId} {root : Root ℓ} {w w' : World υ ℓ} {e : PvcError}
    (h : (World.storeRoot handle root).run w = .error e w') : w' = w := by
  rw [World.storeRoot, EStateM.run_bind, EStateM.run_get] at h
  simp only at h
  split at h
  · cases h
  · cases h
    rfl

theorem storeRoot_ok {handle : LockId} {root : Root ℓ} {w w' : World υ ℓ}
    (h : (World.storeRoot handle root).run w = .ok () w') :
    (∃ old, w.locks[handle]? = some ⟨old, false⟩) ∧
      w' = { w with locks := w.locks.set handle ⟨root, false⟩ } := by
  rw [World.storeRoot, EStateM.run_bind, EStateM.run_get] at h
  simp only at h
  split at h
  · rename_i old hlock
    cases h
    exact ⟨⟨old, hlock⟩, rfl⟩
  · cases h

/-- A clone hands every method to the root behind its lock. -/
theorem delegate_eq {α : Type} {w : World υ ℓ} {r : SwappableRoot} {root : Root ℓ}
    (h : w.locks[r.inner]? = some ⟨root, false⟩) (x : VfsM (LayerFS υ ℓ) α) :
    (r.delegate x).run w = (World.onRoot root x).run w := by
  rw [SwappableRoot.delegate, EStateM.run_bind, SwappableRoot.current, run_ask, h]

variable [FileSystem υ]

/-- A pivot that fails changes neither the mount nor the lock. -/
theorem pivotUpper_error {e : PvcError}
    (h : (pivotUpper d physical onOld).run s = .error e s') : s'.shared = s.shared := by
  have hstore : ∀ root : Root ℓ, Triple (fun s₀ => shared s₀ = shared s)
      (onWorld (World.storeRoot s.pvc.rootHandle root) : EStateM PvcError (Session υ ℓ) Unit)
      (fun _ _ => True) (fun s₀ => shared s₀ = shared s) := by
    intro root s₀ hs
    rw [onWorld, run_onPart]
    cases hrun : (World.storeRoot s.pvc.rootHandle root).run s₀.world with
    | ok a w => exact trivial
    | error e w =>
      rw [storeRoot_error hrun]
      exact hs
  have hprobe : Triple (· = s)
      (onWorld (Mount.probe ".rspacefs-pvc-pivot-probe" d) : EStateM PvcError (Session υ ℓ) Unit)
      (fun _ s₀ => shared s₀ = shared s) (fun s₀ => shared s₀ = shared s) := by
    rintro _ rfl
    exact keeps_onWorld (keeps_probe _ d) (shared _) _ rfl
  have hpivot : Triple (· = s)
      (pivotUpper d physical onOld : EStateM PvcError (Session υ ℓ) PivotReport)
      (fun _ _ => True) (fun s₀ => shared s₀ = shared s) := by
    apply Triple.bind_run (EStateM.run_get s)
    refine Triple.ask_from rfl fun _ _ => ?_
    apply Triple.bind hprobe
    intro _
    -- nothing fails after the root is stored
    exact Triple.bind (hstore _) fun _ _ _ => trivial
  exact hpivot.error rfl h

/-- A pivot that returns has stored the new root. -/
theorem pivotUpper_ok {report : PivotReport}
    (h : (pivotUpper d physical onOld).run s = .ok report s') :
    ∃ w : World υ ℓ, (Mount.probe ".rspacefs-pvc-pivot-probe" d).run s.world = .ok () w ∧
      (∃ old, w.locks[s.pvc.rootHandle]? = some ⟨old, false⟩) ∧
      s' = { s with
        world := { w with locks := w.locks.set s.pvc.rootHandle ⟨⟨d, s.pvc.lowers⟩, false⟩ }
        pvc := { s.pvc with upper := d, upperPhysical := physical } } := by
  rw [pivotUpper, EStateM.run_bind, EStateM.run_get] at h
  obtain ⟨⟨⟩, s₁, hask, h⟩ := run_bind_eq_ok.mp h
  obtain ⟨-, rfl⟩ := run_ask_eq_ok.mp hask
  obtain ⟨⟨⟩, s₂, hprobe, h⟩ := run_bind_eq_ok.mp h
  obtain ⟨w, hw, rfl⟩ := run_onPart_eq_ok.mp hprobe
  obtain ⟨⟨⟩, s₃, hstore, h⟩ := run_bind_eq_ok.mp h
  obtain ⟨w', hw', rfl⟩ := run_onPart_eq_ok.mp hstore
  obtain ⟨hlock, rfl⟩ := storeRoot_ok hw'
  cases h
  exact ⟨w, hw, hlock, rfl⟩

end Pivot

/-! ### Runs -/

section Runs

variable [FileSystem υ]

theorem Consistent.pivotUpper (h : Consistent s) (d : DirId) (physical : Option PathBuf)
    (onOld : Option Nat) : Consistent (finalState (pivotUpper d physical onOld) s) := by
  unfold finalState
  cases hrun : (Session.pivotUpper d physical onOld).run s with
  | error e s' => exact h.of_shared (pivotUpper_error hrun)
  | ok report s' =>
    obtain ⟨w, -, ⟨old, hlock⟩, rfl⟩ := pivotUpper_ok hrun
    refine ⟨h.shared, false, ?_⟩
    exact List.getElem?_set_self (List.getElem?_eq_some_iff.mp hlock).1

/-- The session right after `PvcMount::new`. -/
def start (pvc : Mount ℓ) (w : World υ ℓ) : Session υ ℓ := ⟨w, pvc, [], []⟩

/-- `PvcMount::new` gives a consistent mount over what it was asked for. -/
theorem start_consistent {opts : PvcOptions ℓ} {w w' : World υ ℓ} {pvc : Mount ℓ}
    (h : (Mount.new opts).run w = .ok pvc w') :
    Consistent (start pvc w') ∧ pvc.upper = opts.upper ∧
      pvc.upperPhysical = opts.upperPhysical ∧ pvc.lowers = opts.lowers := by
  obtain ⟨⟨⟩, w₁, -, h⟩ := run_bind_eq_ok.mp h
  obtain ⟨⟨⟩, w₂, -, h⟩ := run_bind_eq_ok.mp h
  cases h
  refine ⟨⟨?_, false, ?_⟩, rfl, rfl, rfl⟩
  · intro r hr
    rw [List.mem_singleton.mp hr]
    rfl
  · exact List.getElem?_concat_length

variable [FileSystem ℓ]

/-- Two filesystems read alike at every path. -/
structure SameView (fs fs' : LayerFS υ ℓ) : Prop where
  existsAt : ∀ p, LayerFS.existsAt p fs = LayerFS.existsAt p fs'
  metadata : ∀ p, LayerFS.metadata p fs = LayerFS.metadata p fs'
  openFile : ∀ p, LayerFS.openFile p fs = LayerFS.openFile p fs'
  readDir : ∀ p, LayerFS.readDir p fs = LayerFS.readDir p fs'

theorem SameView.of_sameContent {u u' : υ} (h : SameContent u u') (lowers : List ℓ) :
    SameView (⟨u, lowers⟩ : LayerFS υ ℓ) ⟨u', lowers⟩ :=
  ⟨h.existsAt_view lowers, h.metadata_view lowers, h.openFile_view lowers, h.readDir_view lowers⟩

/-- Every step keeps the mount consistent. -/
theorem Consistent.step (h : Consistent s) (step : Step υ) : Consistent (s.next step) := by
  cases step with
  | pivot d physical onOld => exact h.pivotUpper d physical onOld
  | clone k =>
    refine ⟨fun r hr => ?_, h.root⟩
    -- a clone shares the lock of what it was cloned from
    rcases List.mem_cons.mp hr with rfl | hr
    · exact h.shared _ List.mem_cons_self
    rcases List.mem_append.mp hr with hr | hr
    · exact h.shared _ (List.mem_cons_of_mem _ hr)
    · exact h.shared _ (List.mem_of_getElem? (Option.mem_toList.mp hr))
  | call k op => exact h.of_shared ((keeps_call k op).finalState s)
  | write k bytes => exact h.of_shared ((keeps_write k bytes).finalState s)
  | outside d content => exact h.of_shared rfl
  | poison =>
    obtain ⟨poisoned, hroot⟩ := h.root
    refine ⟨h.shared, true, ?_⟩
    refine (List.getElem?_modify_eq _ _ _).trans ?_
    rw [hroot]
    rfl

/-- The upper directory and its physical path after a step: a pivot that returns gives a new
pair. -/
def givenBy (pair : DirId × Option PathBuf) (s : Session υ ℓ) : Step υ → DirId × Option PathBuf
  | .pivot d physical onOld =>
    match (Session.pivotUpper d physical onOld).run s with
    | .ok _ _ => (d, physical)
    | .error _ _ => pair
  | _ => pair

/-- The pair given last in a run. -/
def lastGiven (pair : DirId × Option PathBuf) (s : Session υ ℓ) :
    List (Step υ) → DirId × Option PathBuf
  | [] => pair
  | step :: steps => lastGiven (givenBy pair s step) (s.next step) steps

/-- A step changes at most the upper directory and its physical path. -/
theorem pvc_next (s : Session υ ℓ) (step : Step υ) :
    (s.next step).pvc = { s.pvc with
      upper := (givenBy (s.pvc.upper, s.pvc.upperPhysical) s step).1
      upperPhysical := (givenBy (s.pvc.upper, s.pvc.upperPhysical) s step).2 } := by
  cases step with
  | pivot d physical onOld =>
    simp only [next, finalState, givenBy]
    cases hrun : (Session.pivotUpper d physical onOld).run s with
    | error e s' => exact congrArg Prod.fst (pivotUpper_error hrun)
    | ok report s' =>
      obtain ⟨w, -, -, rfl⟩ := pivotUpper_ok hrun
      rfl
  | clone k => rfl
  | call k op => exact congrArg Prod.fst ((keeps_call k op).finalState s)
  | write k bytes => exact congrArg Prod.fst ((keeps_write k bytes).finalState s)
  | outside d content => rfl
  | poison => rfl

/-- The pair in the mount is the one given last. -/
theorem lastGiven_eq (steps : List (Step υ)) (s : Session υ ℓ) :
    lastGiven (s.pvc.upper, s.pvc.upperPhysical) s steps =
      ((steps.foldl next s).pvc.upper, (steps.foldl next s).pvc.upperPhysical) := by
  induction steps generalizing s with
  | nil => rfl
  | cons step steps ih => rw [List.foldl_cons, ← ih, lastGiven, pvc_next]

/-- A pivot took effect: all clones work on the new root, with the same lower layers. -/
structure Pivoted (s : Session υ ℓ) (d : DirId) (physical : Option PathBuf)
    (s' : Session υ ℓ) : Prop where
  pvc : s'.pvc = { s.pvc with upper := d, upperPhysical := physical }
  handles : s'.handles = s.handles
  /-- Clones made before, and a clone made now. -/
  delegate : ∀ k, ∀ r ∈ (s'.next (.clone k)).handles, ∀ {α : Type} (x : VfsM (LayerFS υ ℓ) α),
    (r.delegate x).run s'.world = (World.onRoot ⟨d, s.pvc.lowers⟩ x).run s'.world
  view : SameContent (s.world.dirs s.pvc.upper) (s'.world.dirs d) →
    SameView (s.world.layers ⟨s.pvc.upper, s.pvc.lowers⟩) (s'.world.layers ⟨d, s.pvc.lowers⟩)

theorem Consistent.pivoted (h : Consistent s) {d : DirId} {physical : Option PathBuf}
    {onOld : Option Nat} {report : PivotReport}
    (hrun : (Session.pivotUpper d physical onOld).run s = .ok report s') :
    Pivoted s d physical s' := by
  have hs' : Consistent s' := by
    have := h.pivotUpper d physical onOld
    rwa [finalState, hrun] at this
  have hinner : ∀ k, ∀ r ∈ (s'.next (.clone k)).handles, r.inner = s'.pvc.rootHandle :=
    fun k => (hs'.step (.clone k)).shared
  obtain ⟨w, -, ⟨old, hlock⟩, rfl⟩ := pivotUpper_ok hrun
  refine ⟨rfl, rfl, fun k r hr α x => delegate_eq ?_ x, fun hsame => SameView.of_sameContent hsame _⟩
  rw [hinner k r hr]
  exact List.getElem?_set_self (List.getElem?_eq_some_iff.mp hlock).1

/-- In every state of a run the mount is consistent, and a pivot from there is all or
nothing. -/
theorem pivots_consistent {opts : PvcOptions ℓ} {w w' : World υ ℓ} {pvc : Mount ℓ}
    (hnew : (Mount.new opts).run w = .ok pvc w') (steps : List (Step υ)) {s : Session υ ℓ}
    (hs : steps.foldl next (start pvc w') = s) :
    (∀ r ∈ s.handles, s.behind r = some ⟨s.pvc.upper, s.pvc.lowers⟩) ∧
      s.pvc.lowers = opts.lowers ∧
      (s.pvc.upper, s.pvc.upperPhysical) =
        lastGiven (opts.upper, opts.upperPhysical) (start pvc w') steps ∧
      (∀ d physical onOld e s', (pivotUpper d physical onOld).run s = .error e s' →
        s'.pvc = s.pvc ∧ s'.handles = s.handles ∧ ∀ r ∈ s.handles, s'.behind r = s.behind r) ∧
      (∀ d physical onOld report s', (pivotUpper d physical onOld).run s = .ok report s' →
        Pivoted s d physical s') := by
  obtain ⟨hstart, hupper, hphysical, hlowers⟩ := start_consistent hnew
  have hrun : Consistent s ∧ s.pvc.lowers = opts.lowers := by
    subst hs
    refine (EachStep.trivial fun _ _ => True.intro).invariant
      (I := fun s => Consistent s ∧ s.pvc.lowers = opts.lowers) ?_ ⟨hstart, hlowers⟩
    rintro s step ⟨hcons, hl⟩ -
    exact ⟨hcons.step step, (congrArg Mount.lowers (pvc_next s step)).trans hl⟩
  obtain ⟨hcons, hl⟩ := hrun
  refine ⟨fun r hr => ?_, hl, ?_, ?_, fun _ _ _ _ _ => hcons.pivoted⟩
  · obtain ⟨poisoned, hroot⟩ := hcons.root
    rw [behind, hcons.shared r hr, hroot]
    rfl
  · rw [← hupper, ← hphysical, ← hs]
    exact (lastGiven_eq steps (start pvc w')).symm
  · intro d physical onOld e s' herr
    obtain ⟨hpvc, hrest⟩ := Prod.mk.inj (pivotUpper_error herr)
    obtain ⟨hlocks, hclones⟩ := Prod.mk.inj hrest
    refine ⟨hpvc, ?_, fun r _ => ?_⟩
    · rw [handles, handles, hpvc, hclones]
    · rw [behind, behind, hlocks]

/-- A run with a clone, a pivot and a new file through the clone: all find the second
directory. -/
theorem pivots_consistent_clone :
    let opts : PvcOptions Tree := ⟨.readWriteOnce, .ephemeralThenPersistent, 0, [.empty], none⟩
    let steps : List (Step Tree) := [.clone 0, .pivot 1 none none, .call 1 (.createFile [['a']])]
    ∃ pvc w', (Mount.new opts).run ⟨fun _ => Tree.empty, []⟩ = .ok pvc w' ∧
      (steps.foldl next (start pvc w')).pvc.upper = 1 ∧
      ∀ r ∈ (steps.foldl next (start pvc w')).handles,
        (steps.foldl next (start pvc w')).behind r =
          some ⟨(steps.foldl next (start pvc w')).pvc.upper,
            (steps.foldl next (start pvc w')).pvc.lowers⟩ := by
  intro opts steps
  obtain ⟨pvc, w', hnew, hupper⟩ :
      ∃ pvc w', (Mount.new opts).run ⟨fun _ => Tree.empty, []⟩ = .ok pvc w' ∧
        (steps.foldl next (start pvc w')).pvc.upper = 1 := ⟨_, _, rfl, rfl⟩
  exact ⟨pvc, w', hnew, hupper, (pivots_consistent hnew steps rfl).1⟩

end Runs

end Session

end Rspacefs.Pvc
