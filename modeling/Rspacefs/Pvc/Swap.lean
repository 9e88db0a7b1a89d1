import Mathlib.Logic.Function.Basic
import Rspacefs.Core.Layer
import Rspacefs.Lib.Thread
import Rspacefs.Vfs.Tree

/-!
# The swappable root

`rspacefs-pvc/src/swap.rs` and `pivot.rs`: the merged view of a PVC mount is a filesystem
that passes every call on to the root it holds behind a lock, and `pivot_upper` stores a new
root there, over another upper directory. A call reads the lock once for each path it is
given, and then works on the roots it read.

## Main definitions

* `PvcMount` — the mount, with the two upper directories and the root in use
* `PvcMount.pivotUpper`, `PvcMount.swap` — the pivot, and the moment it takes effect
* `SwappableRoot.existsAt`, … — the methods of the filesystem, as threads
-/

namespace Rspacefs

open Lib

inductive PvcAccessMode
  | empty
  | readOnly
  | readWriteOnce
  | readWriteMany
  deriving DecidableEq, Repr

inductive PvcLifecycle
  | persistent
  | ephemeral
  | ephemeralThenPersistent
  deriving DecidableEq, Repr

/-- The `Debug` text. -/
def PvcLifecycle.debug : PvcLifecycle → String
  | .persistent => "Persistent"
  | .ephemeral => "Ephemeral"
  | .ephemeralThenPersistent => "EphemeralThenPersistent"

inductive PvcError
  | io
  | invalidArgument (message : String)
  | vfs (e : VfsError)
  deriving DecidableEq, Repr

/-- Names for the two upper directories. -/
inductive Side
  | left
  | right
  deriving DecidableEq, Repr

def Side.other : Side → Side
  | .left => .right
  | .right => .left

@[simp] theorem Side.other_ne (side : Side) : side.other ≠ side := by cases side <;> nofun

@[simp] theorem Side.ne_other (side : Side) : side ≠ side.other := by cases side <;> nofun

/-- A live PVC mount: the root is a `LayerFS` over one of two upper directories. -/
structure PvcMount (υ ℓ : Type) where
  accessMode : PvcAccessMode
  lifecycle : PvcLifecycle
  uppers : Side → υ
  /-- The upper directory of the root behind the lock. -/
  side : Side
  lowers : List ℓ

namespace PvcMount

variable {υ ℓ : Type}

/-- The root over one of the upper directories. -/
def rootAt (side : Side) (m : PvcMount υ ℓ) : LayerFS υ ℓ := ⟨m.uppers side, m.lowers⟩

def setRoot (side : Side) (fs : LayerFS υ ℓ) (m : PvcMount υ ℓ) : PvcMount υ ℓ :=
  { m with uppers := Function.update m.uppers side fs.upper }

/-- The merged view. -/
def merged (m : PvcMount υ ℓ) : LayerFS υ ℓ := m.rootAt m.side

/-- The new root takes the place of the old one: `content` is what its upper directory
holds at that moment, given what the old one holds. -/
def swap (content : υ → υ) (m : PvcMount υ ℓ) : PvcMount υ ℓ :=
  { m with
    uppers := Function.update m.uppers m.side.other (content (m.uppers m.side))
    side := m.side.other }

@[simp] theorem side_setRoot (side : Side) (fs : LayerFS υ ℓ) (m : PvcMount υ ℓ) :
    (m.setRoot side fs).side = m.side := rfl

@[simp] theorem rootAt_setRoot_other (side : Side) (fs : LayerFS υ ℓ) (m : PvcMount υ ℓ) :
    (m.setRoot side fs).rootAt side.other = m.rootAt side.other := by
  simp [rootAt, setRoot]

@[simp] theorem upper_rootAt (side : Side) (m : PvcMount υ ℓ) :
    (m.rootAt side).upper = m.uppers side := rfl

@[simp] theorem rootAt_swap_self (content : υ → υ) (m : PvcMount υ ℓ) :
    (m.swap content).rootAt m.side = m.rootAt m.side := by
  simp [rootAt, swap]

@[simp] theorem side_swap (content : υ → υ) (m : PvcMount υ ℓ) :
    (m.swap content).side = m.side.other := rfl

@[simp] theorem uppers_swap (content : υ → υ) (m : PvcMount υ ℓ) :
    (m.swap content).uppers m.side.other = content (m.uppers m.side) := by
  simp [swap]

/-- A pivot to a copy of the upper directory does not change the merged view. -/
@[simp] theorem merged_swap_id (m : PvcMount υ ℓ) : (m.swap id).merged = m.merged := by
  simp [merged, rootAt, swap]

/-- Run a program on the root over one of the upper directories. -/
def onRoot {ε α : Type} (side : Side) (x : EStateM ε (LayerFS υ ℓ) α) :
    EStateM ε (PvcMount υ ℓ) α :=
  onPart (rootAt side) (setRoot side) x

@[simp] theorem setRoot_rootAt (side : Side) (m : PvcMount υ ℓ) :
    m.setRoot side (m.rootAt side) = m := by
  simp [setRoot]

/-- Asking a root changes nothing. -/
theorem run_onRoot_ask {ε α : Type} (side : Side) (g : LayerFS υ ℓ → Except ε α)
    (m : PvcMount υ ℓ) :
    (onRoot side (ask g)).run m = match g (m.rootAt side) with
      | .ok a => .ok a m
      | .error e => .error e m := by
  rw [onRoot, run_onPart, run_ask]
  cases g (m.rootAt side) <;> simp

/-- Check that a directory can be written to. -/
def probe [FileSystem υ] (name : Name) : VfsM υ Unit := do
  VfsPath.createDir [name]
  FileSystem.removeDir [name]

/-- `pivot_upper`: refused unless the mount is there to be promoted and the new directory
can be written to. -/
def pivotUpper [FileSystem υ] (newUpper : υ) : EStateM PvcError (PvcMount υ ℓ) Unit := do
  let m ← get
  if m.accessMode = .readOnly then
    throw (.invalidArgument "pivot_upper not allowed on a ReadOnly PVC")
  else if m.lifecycle ≠ .ephemeralThenPersistent then
    throw (.invalidArgument
      ("pivot_upper requires lifecycle EphemeralThenPersistent; got " ++ m.lifecycle.debug))
  else match (probe ".rspacefs-pvc-pivot-probe".toList).run newUpper with
    | .error e _ => throw (.vfs e)
    | .ok _ probed => set (m.swap fun _ => probed)

theorem pivotUpper_eq_ok [FileSystem υ] {m m' : PvcMount υ ℓ} {newUpper : υ}
    (h : (pivotUpper newUpper).run m = .ok () m') :
    ∃ probed, (probe ".rspacefs-pvc-pivot-probe".toList).run newUpper = .ok () probed ∧
      m' = m.swap fun _ => probed := by
  rw [pivotUpper, EStateM.run_bind, EStateM.run_get] at h
  simp only at h
  split at h
  · cases h
  split at h
  · cases h
  split at h
  · cases h
  · cases h
    exact ⟨_, ‹_›, rfl⟩

end PvcMount

/-! ### The methods of the root -/

namespace SwappableRoot

variable {υ ℓ : Type}

/-- A thread that works on a PVC mount. -/
abbrev RootM (υ ℓ α : Type) := Thread VfsError (PvcMount υ ℓ) α

/-- Read the lock. -/
def currentRoot : RootM υ ℓ Side := Thread.atomic (ask fun m => .ok m.side)

@[simp] theorem alone_currentRoot_bind {α : Type} (f : Side → RootM υ ℓ α) (m : PvcMount υ ℓ) :
    (currentRoot >>= f).alone m = (f m.side).alone m :=
  Thread.alone_atomic_bind _ _ _

@[simp] theorem interrupted_currentRoot_bind {α : Type} {event : PvcMount υ ℓ → PvcMount υ ℓ}
    (f : Side → RootM υ ℓ α) (k : Nat) (m : PvcMount υ ℓ) :
    (currentRoot >>= f).interrupted event (k + 1) m = (f m.side).interrupted event k m :=
  Thread.interrupted_atomic_bind _ _ _ _

/-- Read the lock, and then call the root that was read. -/
def delegate {α : Type} (x : VfsM (LayerFS υ ℓ) α) : RootM υ ℓ α := do
  let side ← currentRoot
  Thread.atomic (PvcMount.onRoot side x)

variable [FileSystem υ] [FileSystem ℓ]

def existsAt (path : Path) : RootM υ ℓ Bool :=
  delegate (ask fun fs => FileSystem.existsAt fs path)

def metadata (path : Path) : RootM υ ℓ VfsMetadata :=
  delegate (ask fun fs => FileSystem.metadata fs path)

/-- The writer stays on the root it came from. -/
def createFile (path : Path) : RootM υ ℓ (Side × Writer) := do
  let side ← currentRoot
  let writer ← Thread.atomic (PvcMount.onRoot side (VfsPath.createFile path))
  return (side, writer)

/-- `VfsPath::get_parent` of a path of the merged view. -/
def getParent (action : String) (path : Path) : RootM υ ℓ Unit := do
  if !(← existsAt path.dropLast) then
    Thread.fail (.other ("Could not " ++ action ++ ", parent directory does not exist"))
  else if (← metadata path.dropLast).fileType ≠ .directory then
    Thread.fail (.other ("Could not " ++ action ++ ", parent path is not a directory"))
  else pure ()

end SwappableRoot

/-- A mount with one file in its upper directory. -/
def fileMount : PvcMount Tree Tree :=
  ⟨.readWriteOnce, .ephemeralThenPersistent,
    fun _ => Tree.ofEntries [(["f".toList], .file [1])], .left, []⟩

end Rspacefs
