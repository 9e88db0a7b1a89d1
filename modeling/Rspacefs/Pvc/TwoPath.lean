import Rspacefs.Core.Pointwise
import Rspacefs.Core.Succeed
import Rspacefs.Pvc.Swap

/-!
# Operations on two paths across a pivot

`copy_file`, `move_file` and `move_dir` through the merged view of a PVC mount. The
swappable root reads the lock once for the source and once for the destination; where it
got two roots, the `vfs` crate copies from one into the other and then removes the source.

## Main definitions

* `TwoPathOp`, `SwappableRoot.twoPath` — the three methods
* `TwoPathOp.onTwo` — what the `vfs` crate does between two roots
* `SwappableRoot.throughMerged` — the operation issued through the merged view
* `outcome` — the value an operation returns, and what the merged view shows after
* `OneRoot` — the two roots make no difference to the operation

## Main results

* `Serial`, `serial_iff` — when an operation that a pivot interrupts ends as one of the two orders
-/

namespace Rspacefs

open Lib PvcMount

inductive TwoPathOp
  | copyFile
  | moveFile
  | moveDir
  deriving DecidableEq, Repr

variable {υ ℓ : Type} [FileSystem υ] [FileSystem ℓ]

/-- `VfsPath::copy_file` and the like between two paths of one root. -/
def TwoPathOp.onOne (op : TwoPathOp) (frames : Nat) (src dest : Path) :
    VfsM (LayerFS υ ℓ) Unit :=
  match op with
  | .copyFile => VfsPath.copyFile src dest
  | .moveFile => VfsPath.moveFile src dest
  | .moveDir => VfsPath.moveDir frames src dest

/-! ### Between two roots

As `vfs` 0.12 does it where the paths belong to different filesystems. -/

namespace Across

/-- Run a program on the source's root. -/
def source {α : Type} (x : VfsM (LayerFS υ ℓ) α) :
    EStateM VfsError (LayerFS υ ℓ × LayerFS υ ℓ) α :=
  onPart Prod.fst (fun fs roots => (fs, roots.2)) x

/-- Run a program on the destination's root. -/
def target {α : Type} (x : VfsM (LayerFS υ ℓ) α) :
    EStateM VfsError (LayerFS υ ℓ × LayerFS υ ℓ) α :=
  onPart Prod.snd (fun fs roots => (roots.1, fs)) x

/-- The check that the destination is not there yet. -/
def ifFree (dest : Path) (x : EStateM VfsError (LayerFS υ ℓ × LayerFS υ ℓ) Unit) :
    EStateM VfsError (LayerFS υ ℓ × LayerFS υ ℓ) Unit := do
  if ← target (ask fun fs => existsAt fs dest) then
    throw (.other "Destination exists already")
  else x

def copyFile (src dest : Path) : EStateM VfsError (LayerFS υ ℓ × LayerFS υ ℓ) Unit :=
  ifFree dest do
    let reader ← source (ask fun fs => openFile fs src)
    let writer ← target (VfsPath.createFile dest)
    let data ← ask fun _ => reader.readToEnd
    target (FileSystem.writeAll writer data)

def copyDir : Nat → Path → Path → EStateM VfsError (LayerFS υ ℓ × LayerFS υ ℓ) Unit
  | 0, _, _ => throw .stackOverflow
  | frames + 1, src, dest => do
    target (VfsPath.createDir dest)
    let names ← source (ask fun fs => readDir fs src)
    names.forM fun name => do
      let md ← source (ask fun fs => metadata fs (src ++ [name]))
      if md.fileType = .directory then copyDir frames (src ++ [name]) (dest ++ [name])
      else copyFile (src ++ [name]) (dest ++ [name])

def removeDirAll : Nat → Path → VfsM (LayerFS υ ℓ) Unit
  | 0, _ => throw .stackOverflow
  | frames + 1, path => do
    let names ← ask fun fs : LayerFS υ ℓ => readDir fs path
    names.forM fun name => do
      let md ← ask fun fs : LayerFS υ ℓ => metadata fs (path ++ [name])
      if md.fileType = .directory then removeDirAll frames (path ++ [name])
      else FileSystem.removeFile (path ++ [name])
    FileSystem.removeDir path

end Across

/-- Copying through both roots, and removing the source. -/
def TwoPathOp.onTwo (op : TwoPathOp) (frames : Nat) (src dest : Path) :
    EStateM VfsError (LayerFS υ ℓ × LayerFS υ ℓ) Unit :=
  match op with
  | .copyFile => Across.copyFile src dest
  | .moveFile => do
    Across.copyFile src dest
    Across.source (FileSystem.removeFile src)
  | .moveDir => Across.ifFree dest do
    Across.copyDir frames src dest
    Across.source (Across.removeDirAll frames src)

/-- Run a program on two roots. -/
def PvcMount.onRoots {α : Type} (source target : Side)
    (x : EStateM VfsError (LayerFS υ ℓ × LayerFS υ ℓ) α) : VfsM (PvcMount υ ℓ) α :=
  onPart (fun m => (m.rootAt source, m.rootAt target))
    (fun roots m => (m.setRoot source roots.1).setRoot target roots.2) x

namespace SwappableRoot

/-- `self.at(src)?.copy_file(&self.at(dest)?)`, and the like. -/
def twoPath (frames : Nat) (op : TwoPathOp) (src dest : Path) : RootM υ ℓ Unit := do
  let source ← currentRoot
  let target ← currentRoot
  Thread.atomic (if source = target then onRoot source (op.onOne frames src dest)
    else onRoots source target (op.onTwo frames src dest))

/-- The operation on two paths of the merged view. -/
def throughMerged (frames : Nat) (op : TwoPathOp) (src dest : Path) : RootM υ ℓ Unit := do
  if ← existsAt dest then Thread.fail (.other "Destination exists already")
  else twoPath frames op src dest

end SwappableRoot

/-! ### Outcomes -/

/-- What a filesystem shows. -/
def shown (fs : LayerFS υ ℓ) (p : Path) :
    VfsResult Bool × VfsResult VfsMetadata × VfsResult (List Name) × VfsResult Bytes :=
  (existsAt fs p, metadata fs p, readDir fs p, contentAt fs p)

/-- The value of an operation, and what the merged view shows after it. -/
def outcome (run : VfsResult Unit × PvcMount υ ℓ) :
    VfsResult Unit × (Path → VfsResult Bool × VfsResult VfsMetadata × VfsResult (List Name) ×
      VfsResult Bytes) :=
  (run.1, shown run.2.merged)

/-- A program in one action. -/
def ran (x : VfsM (PvcMount υ ℓ) Unit) (m : PvcMount υ ℓ) : VfsResult Unit × PvcMount υ ℓ :=
  (Thread.atomic x).alone m

/-- The operation before the pivot. -/
def before (content : υ → υ) (t : SwappableRoot.RootM υ ℓ Unit) (m : PvcMount υ ℓ) :
    VfsResult Unit × PvcMount υ ℓ :=
  ((t.alone m).1, (t.alone m).2.swap content)

/-- The operation after the pivot. -/
def after (content : υ → υ) (t : SwappableRoot.RootM υ ℓ Unit) (m : PvcMount υ ℓ) :
    VfsResult Unit × PvcMount υ ℓ :=
  t.alone (m.swap content)

section Placement

variable (content : υ → υ) (frames : Nat) (op : TwoPathOp) (src dest : Path) (m : PvcMount υ ℓ)

/-- The copy from the old root into the new one. -/
def crossed : VfsResult Unit × PvcMount υ ℓ :=
  ran (onRoots m.side m.side.other (op.onTwo frames src dest)) (m.swap content)

/-- The operation on the old root, once the new one is in use. -/
def late : VfsResult Unit × PvcMount υ ℓ :=
  ran (onRoot m.side (op.onOne frames src dest)) (m.swap content)

end Placement

variable {content : υ → υ} {frames : Nat} {op : TwoPathOp} {src dest : Path} {m : PvcMount υ ℓ}

/-- The check that the destination is not there yet. -/
def destFree (dest : Path) (fs : LayerFS υ ℓ) : VfsResult Unit := do
  if ← existsAt fs dest then .error (.other "Destination exists already") else .ok ()

theorem destFree_eq_ok {fs : LayerFS υ ℓ} :
    destFree dest fs = .ok () ↔ existsAt fs dest = .ok false := by
  unfold destFree
  cases existsAt fs dest with
  | error e => exact iff_of_false nofun nofun
  | ok there => cases there <;> simp [bind, Except.bind]

/-- The operation on one root makes the check itself. -/
theorem onOne_stops {fs : LayerFS υ ℓ} {e : VfsError} (h : destFree dest fs = .error e) :
    (op.onOne frames src dest).run fs = .error e fs := by
  have hrun : ∀ x : VfsM (LayerFS υ ℓ) Unit,
      (do
        if ← ask fun fs : LayerFS υ ℓ => existsAt fs dest then
          throw (VfsError.other "Destination exists already")
        else x : VfsM (LayerFS υ ℓ) Unit).run fs = .error e fs := by
    intro x
    rw [EStateM.run_bind, run_ask]
    unfold destFree at h
    cases hthere : existsAt fs dest with
    | error e' =>
      rw [hthere] at h
      rw [← Except.error.inj h]
    | ok there =>
      rw [hthere] at h
      obtain rfl | rfl := there.eq_false_or_eq_true
      · rw [← Except.error.inj h]
        rfl
      · cases h
  cases op <;> exact hrun _

/-- What follows the check of the destination. -/
theorem alone_existsAt_bind (t : SwappableRoot.RootM υ ℓ Unit) :
    (do
      if ← SwappableRoot.existsAt dest then
        Thread.fail (.other "Destination exists already")
      else t : SwappableRoot.RootM υ ℓ Unit).alone m =
      match destFree dest m.merged with
      | .error e => (.error e, m)
      | .ok () => t.alone m := by
  rw [SwappableRoot.existsAt, SwappableRoot.delegate, Thread.bind_assoc,
    SwappableRoot.alone_currentRoot_bind, Thread.alone_atomic_bind, run_onRoot_ask, destFree,
    PvcMount.merged]
  cases existsAt (m.rootAt m.side) dest with
  | error e => rfl
  | ok there => cases there <;> rfl

theorem ran_stops {side : Side} {e : VfsError} (h : destFree dest (m.rootAt side) = .error e) :
    ran (onRoot side (op.onOne frames src dest)) m = (.error e, m) := by
  rw [ran, Thread.alone_atomic, onRoot, run_onPart, onOne_stops h]
  simp

/-- Alone, the operation is the one on the root in use. -/
theorem alone_throughMerged :
    (SwappableRoot.throughMerged frames op src dest).alone m =
      ran (onRoot m.side (op.onOne frames src dest)) m := by
  rw [SwappableRoot.throughMerged, alone_existsAt_bind]
  cases hfree : destFree dest m.merged with
  | error e => exact (ran_stops hfree).symm
  | ok _ =>
    rw [SwappableRoot.twoPath, SwappableRoot.alone_currentRoot_bind,
      SwappableRoot.alone_currentRoot_bind, if_pos rfl, ran]

/-! ### Where the pivot comes -/

/-- The pivot comes once the destination was looked up. -/
theorem interrupted_existsAt_bind {event : PvcMount υ ℓ → PvcMount υ ℓ}
    (t : SwappableRoot.RootM υ ℓ Unit) (k : Nat) :
    (do
      if ← SwappableRoot.existsAt dest then
        Thread.fail (.other "Destination exists already")
      else t : SwappableRoot.RootM υ ℓ Unit).interrupted event (k + 2) m =
      match destFree dest m.merged with
      | .error e => (.error e, event m)
      | .ok () => t.interrupted event k m := by
  rw [SwappableRoot.existsAt, SwappableRoot.delegate, Thread.bind_assoc,
    SwappableRoot.interrupted_currentRoot_bind, Thread.interrupted_atomic_bind, run_onRoot_ask,
    destFree, PvcMount.merged]
  cases existsAt (m.rootAt m.side) dest with
  | error e => rfl
  | ok there =>
    cases there with
    | true => exact Thread.interrupted_fail _ k m
    | false => rfl

/-- The pivot comes between reading the lock and looking up the destination. -/
theorem interrupted_existsAt_bind_one (t : SwappableRoot.RootM υ ℓ Unit) :
    (do
      if ← SwappableRoot.existsAt dest then
        Thread.fail (.other "Destination exists already")
      else t : SwappableRoot.RootM υ ℓ Unit).interrupted (swap content) 1 m =
      match destFree dest m.merged with
      | .error e => (.error e, m.swap content)
      | .ok () => t.alone (m.swap content) := by
  rw [SwappableRoot.existsAt, SwappableRoot.delegate, Thread.bind_assoc,
    SwappableRoot.interrupted_currentRoot_bind, Thread.interrupted_zero, Thread.alone_atomic_bind,
    run_onRoot_ask, rootAt_swap_self, destFree, PvcMount.merged]
  cases existsAt (m.rootAt m.side) dest with
  | error e => rfl
  | ok there => cases there <;> rfl

/-- An operation that stops at the check of its destination comes before the pivot. -/
theorem interrupted_stops {e : VfsError} (h : destFree dest m.merged = .error e) (k : Nat) :
    (SwappableRoot.throughMerged frames op src dest).interrupted (swap content) (k + 1) m =
      before content (SwappableRoot.throughMerged frames op src dest) m := by
  have hbefore : before content (SwappableRoot.throughMerged frames op src dest) m =
      (.error e, m.swap content) := by
    rw [before, alone_throughMerged, ran_stops h]
  rw [hbefore, SwappableRoot.throughMerged]
  cases k with
  | zero => rw [interrupted_existsAt_bind_one, h]
  | succ k => rw [interrupted_existsAt_bind, h]

/-- The pivot comes before the operation reads the root for its source. -/
theorem interrupted_early (h : destFree dest m.merged = .ok ()) {k : Nat} (hk : k ≤ 2) :
    (SwappableRoot.throughMerged frames op src dest).interrupted (swap content) k m =
      after content (SwappableRoot.throughMerged frames op src dest) m := by
  have hafter : after content (SwappableRoot.throughMerged frames op src dest) m =
      (SwappableRoot.twoPath frames op src dest).alone (m.swap content) := by
    rw [after, alone_throughMerged, SwappableRoot.twoPath, SwappableRoot.alone_currentRoot_bind,
      SwappableRoot.alone_currentRoot_bind, if_pos rfl, ran]
  obtain rfl | rfl | rfl : k = 0 ∨ k = 1 ∨ k = 2 := by omega
  · exact Thread.interrupted_zero _ m
  · rw [hafter, SwappableRoot.throughMerged, interrupted_existsAt_bind_one, h]
  · rw [hafter, SwappableRoot.throughMerged, interrupted_existsAt_bind, h]
    exact Thread.interrupted_zero _ m

/-- The pivot comes between the two reads of the root. -/
theorem interrupted_between (h : destFree dest m.merged = .ok ()) :
    (SwappableRoot.throughMerged frames op src dest).interrupted (swap content) 3 m =
      crossed content frames op src dest m := by
  rw [SwappableRoot.throughMerged, interrupted_existsAt_bind, h, SwappableRoot.twoPath]
  change (SwappableRoot.currentRoot >>= _).interrupted (swap content) (0 + 1) m = _
  rw [SwappableRoot.interrupted_currentRoot_bind, Thread.interrupted_zero,
    SwappableRoot.alone_currentRoot_bind, side_swap, if_neg (Side.ne_other _), crossed, ran]

/-- The pivot comes between reading the roots and the call. -/
theorem interrupted_before_call (h : destFree dest m.merged = .ok ()) :
    (SwappableRoot.throughMerged frames op src dest).interrupted (swap content) 4 m =
      late content frames op src dest m := by
  rw [SwappableRoot.throughMerged, interrupted_existsAt_bind, h, SwappableRoot.twoPath]
  change (SwappableRoot.currentRoot >>= _).interrupted (swap content) (1 + 1) m = _
  rw [SwappableRoot.interrupted_currentRoot_bind, SwappableRoot.interrupted_currentRoot_bind,
    if_pos rfl, Thread.interrupted_zero, late, ran]

/-- The pivot comes after the call. -/
theorem interrupted_after_call (h : destFree dest m.merged = .ok ()) (k : Nat) :
    (SwappableRoot.throughMerged frames op src dest).interrupted (swap content) (k + 5) m =
      before content (SwappableRoot.throughMerged frames op src dest) m := by
  rw [before, alone_throughMerged, SwappableRoot.throughMerged, interrupted_existsAt_bind, h,
    SwappableRoot.twoPath]
  change (SwappableRoot.currentRoot >>= _).interrupted (swap content) (k + 2 + 1) m = _
  rw [SwappableRoot.interrupted_currentRoot_bind, SwappableRoot.interrupted_currentRoot_bind,
    if_pos rfl, Thread.interrupted_atomic, ran, Thread.alone_atomic]
  cases (onRoot m.side (op.onOne frames src dest)).run m <;> rfl

/-- The operation on the old root ends as it would have before the pivot, and the merged
view does not show what it did. -/
theorem outcome_late : outcome (late content frames op src dest m) =
    ((before content (SwappableRoot.throughMerged frames op src dest) m).1,
      shown (m.swap content).merged) := by
  have hother : ∀ fs : LayerFS υ ℓ,
      ((m.swap content).setRoot m.side fs).merged = (m.swap content).merged :=
    fun fs => rootAt_setRoot_other m.side fs (m.swap content)
  rw [before, alone_throughMerged, late, ran, ran, Thread.alone_atomic, Thread.alone_atomic, onRoot,
    run_onPart, run_onPart, rootAt_swap_self, outcome]
  cases (op.onOne frames src dest).run (m.rootAt m.side) with
  | ok a fs => exact congrArg (Prod.mk _) (congrArg shown (hother fs))
  | error e fs => exact congrArg (Prod.mk _) (congrArg shown (hother fs))

/-- A run ends as the operation would before the pivot, or as it would after. -/
def Serial (content : υ → υ) (t : SwappableRoot.RootM υ ℓ Unit) (m : PvcMount υ ℓ)
    (run : VfsResult Unit × PvcMount υ ℓ) : Prop :=
  outcome run = outcome (before content t m) ∨ outcome run = outcome (after content t m)

/-! ### One root -/

/-- The path is a directory. -/
def ShowsDir (fs : LayerFS υ ℓ) (path : Path) : Prop :=
  existsAt fs path = .ok true ∧ ∃ md, metadata fs path = .ok md ∧ md.fileType = .directory

/-- The pivot to `newUpper` makes no difference to the operation: it does not come between the two
reads of the root; or the destination is in the way in one of the roots; or the old root does not
open the source of a file operation; or a file is copied that both roots have. -/
def OneRoot (newUpper : υ) (op : TwoPathOp) (src dest : Path) (m : PvcMount υ ℓ) (k : Nat) : Prop :=
  k ≠ 3 ∨ existsAt m.merged dest ≠ .ok false ∨
    existsAt (m.swap fun _ => newUpper).merged dest ≠ .ok false ∨
    (op ≠ .moveDir ∧ ∃ e, openFile m.merged src = .error e) ∨
    op = .copyFile ∧ ShowsDir (m.swap fun _ => newUpper).merged dest.dropLast ∧
      ∃ data, contentAt m.merged src = .ok data ∧
        contentAt (m.swap fun _ => newUpper).merged src = .ok data

variable {newUpper : υ} {o n : LayerFS υ ℓ} {e : VfsError} {data : Bytes} {k : Nat}

/-- What an operation does to the old root does not show in the new one. -/
theorem outcome_before :
    outcome (before (fun _ => newUpper) (SwappableRoot.throughMerged frames op src dest) m) =
      ((ran (onRoot m.side (op.onOne frames src dest)) m).1,
        shown (m.swap fun _ => newUpper).merged) := by
  have hswap : ∀ fs : LayerFS υ ℓ, ((m.setRoot m.side fs).swap fun _ => newUpper).merged =
      (m.swap fun _ => newUpper).merged := fun fs => by
    simp [merged, rootAt, swap, setRoot]
  rw [before, alone_throughMerged, outcome, ran, Thread.alone_atomic, onRoot, run_onPart]
  cases (op.onOne frames src dest).run (m.rootAt m.side) with
  | ok a fs => exact congrArg (Prod.mk _) (congrArg shown (hswap fs))
  | error e fs => exact congrArg (Prod.mk _) (congrArg shown (hswap fs))

/-- Then the operation that comes after reading the roots is one that came before the pivot. -/
theorem serial_late : Serial (fun _ => newUpper) (SwappableRoot.throughMerged frames op src dest) m
    (late (fun _ => newUpper) frames op src dest m) := by
  refine Or.inl ?_
  rw [outcome_late, outcome_before, before, alone_throughMerged]

/-! ### Crossing -/

theorem crossed_of_ok {roots : LayerFS υ ℓ × LayerFS υ ℓ}
    (h : (op.onTwo frames src dest).run (m.merged, (m.swap content).merged) = .ok () roots) :
    crossed content frames op src dest m =
      (.ok (), ((m.swap content).setRoot m.side roots.1).setRoot m.side.other roots.2) := by
  have hrun : (op.onTwo frames src dest).run ((m.swap content).rootAt m.side,
      (m.swap content).rootAt m.side.other) = .ok () roots := by
    rw [rootAt_swap_self]
    exact h
  rw [crossed, ran, Thread.alone_atomic, onRoots, run_onPart, hrun]

/-- A call that fails at once leaves both roots. -/
theorem crossed_of_error
    (h : (op.onTwo frames src dest).run (m.merged, (m.swap content).merged) =
      .error e (m.merged, (m.swap content).merged)) :
    crossed content frames op src dest m = (.error e, m.swap content) := by
  have hrun : (op.onTwo frames src dest).run ((m.swap content).rootAt m.side,
      (m.swap content).rootAt m.side.other) = .error e ((m.swap content).rootAt m.side,
        (m.swap content).rootAt m.side.other) := by
    rw [rootAt_swap_self]
    exact h
  rw [crossed, ran, Thread.alone_atomic, onRoots, run_onPart, hrun]
  simp only [setRoot_rootAt]

theorem run_ifFree_stops {x : EStateM VfsError (LayerFS υ ℓ × LayerFS υ ℓ) Unit}
    (h : destFree dest n = .error e) : (Across.ifFree dest x).run (o, n) = .error e (o, n) := by
  rw [Across.ifFree, EStateM.run_bind, Across.target, run_onPart, run_ask]
  unfold destFree at h
  cases hthere : existsAt n dest with
  | error e' =>
    rw [hthere] at h
    rw [← Except.error.inj h]
  | ok there =>
    rw [hthere] at h
    obtain rfl | rfl := there.eq_false_or_eq_true
    · rw [← Except.error.inj h]
      rfl
    · cases h

theorem run_ifFree {x : EStateM VfsError (LayerFS υ ℓ × LayerFS υ ℓ) Unit}
    (h : existsAt n dest = .ok false) : (Across.ifFree dest x).run (o, n) = x.run (o, n) := by
  rw [Across.ifFree, EStateM.run_bind, Across.target, run_onPart, run_ask, h]
  rfl

/-- Where the destination is in the way in the new root, the operation stops as it would there. -/
theorem run_onTwo_stops (h : destFree dest n = .error e) :
    (op.onTwo frames src dest).run (o, n) = .error e (o, n) := by
  cases op with
  | copyFile => exact run_ifFree_stops h
  | moveFile => exact run_bind_of_error (run_ifFree_stops h)
  | moveDir => exact run_ifFree_stops h

/-- Where the old root does not open the source, the operation stops as it would there. -/
theorem run_onTwo_of_unopened (hop : op ≠ .moveDir) (hfree : existsAt n dest = .ok false)
    (h : openFile o src = .error e) : (op.onTwo frames src dest).run (o, n) = .error e (o, n) := by
  have hcopy : (Across.copyFile src dest).run (o, n) = .error e (o, n) := by
    rw [Across.copyFile, run_ifFree hfree]
    apply run_bind_of_error
    rw [Across.source, run_onPart, run_ask, h]
  cases op with
  | copyFile => exact hcopy
  | moveFile => exact run_bind_of_error hcopy
  | moveDir => exact absurd rfl hop

/-- What `copy_file` does with what it read. -/
def store (dest : Path) (data : Bytes) : VfsM (LayerFS υ ℓ) Unit := do
  let writer ← LayerFS.createFile dest
  FileSystem.writeAll writer data

/-- Copying opens the source, reads it, and stores what was read. -/
theorem copyFile_eq : (LayerFS.copyFile src dest : VfsM (LayerFS υ ℓ) Unit) = (do
    let reader ← ask fun fs : LayerFS υ ℓ => openFile fs src
    let data ← ask fun _ => reader.readToEnd
    store dest data) := by
  funext fs
  have hstore : ∀ data : Bytes, (do
      LayerFS.ensureUpperParents dest
      LayerFS.removeWhiteout dest
      let writer ← LayerFS.onUpper (VfsPath.createFile dest)
      LayerFS.onUpper (FileSystem.writeAll writer data) : VfsM (LayerFS υ ℓ) Unit) =
        store dest data := by
    intro data
    simp only [store, LayerFS.createFile, bind_assoc]
    rfl
  have hopen : openFile fs src = LayerFS.openFile src fs := rfl
  simp only [LayerFS.copyFile, hstore]
  change EStateM.run _ fs = EStateM.run _ fs
  rw [EStateM.run_bind, EStateM.run_bind, run_ask, run_ask, hopen, LayerFS.openFile]
  cases LayerFS.resolve src fs with
  | error e => rfl
  | ok found => cases found <;> rfl

/-- Past the check of the destination. -/
theorem run_unlessThere_of_free (h : existsAt n dest = .ok false) (x : VfsM (LayerFS υ ℓ) Unit) :
    (do
      if ← ask fun fs : LayerFS υ ℓ => existsAt fs dest then
        throw (VfsError.other "Destination exists already")
      else x : VfsM (LayerFS υ ℓ) Unit).run n = x.run n := by
  rw [EStateM.run_bind, run_ask, h]
  rfl

theorem run_onOne_of_unopened (hop : op ≠ .moveDir) (hfree : existsAt o dest = .ok false)
    (h : openFile o src = .error e) : (op.onOne frames src dest).run o = .error e o := by
  have hcopy : (LayerFS.copyFile src dest).run o = .error e o := by
    rw [copyFile_eq]
    apply run_bind_of_error
    rw [run_ask, h]
  cases op with
  | copyFile => exact (run_unlessThere_of_free hfree _).trans hcopy
  | moveFile => exact (run_unlessThere_of_free hfree _).trans (run_bind_of_error hcopy)
  | moveDir => exact absurd rfl hop

/-- With the source in its hands, a copy only stores it. -/
theorem run_copyFile_of_content (h : contentAt n src = .ok data) :
    (LayerFS.copyFile src dest).run n = (store dest data).run n := by
  obtain ⟨reader, hopen, hread⟩ := except_bind_eq_ok.mp h
  have hasked : (ask fun fs : LayerFS υ ℓ => openFile fs src).run n = .ok reader n := by
    rw [run_ask, hopen]
  have hdata : (ask fun _ : LayerFS υ ℓ => reader.readToEnd).run n = .ok data n := by
    rw [run_ask, hread]
  rw [copyFile_eq, run_bind_of_ok hasked, run_bind_of_ok hdata]

theorem run_acrossCopy_of_content (hfree : existsAt n dest = .ok false)
    (hparent : ShowsDir n dest.dropLast) (h : contentAt o src = .ok data) :
    (Across.copyFile src dest).run (o, n) = (Across.target (store dest data)).run (o, n) := by
  obtain ⟨reader, hopen, hread⟩ := except_bind_eq_ok.mp h
  obtain ⟨hthere, md, hmd, hdir⟩ := hparent
  have hasked : (Across.source (ask fun fs : LayerFS υ ℓ => openFile fs src)).run (o, n) =
      .ok reader (o, n) := by
    rw [Across.source, run_onPart, run_ask, hopen]
  have hget : VfsPath.getParent "create file" dest n = .ok () := by
    unfold VfsPath.getParent
    simp only [hthere, hmd, ok_bind, hdir]
    rfl
  have hcreate : (VfsPath.createFile dest).run n = (LayerFS.createFile dest).run n := by
    rw [VfsPath.createFile, EStateM.run_bind, run_ask, hget]
    rfl
  rw [Across.copyFile, run_ifFree hfree, run_bind_of_ok hasked, Across.target, Across.target,
    run_onPart, store, EStateM.run_bind, EStateM.run_bind, run_onPart, hcreate]
  cases (LayerFS.createFile dest).run n with
  | error e' n' => rfl
  | ok writer n' =>
    have hdata : (ask fun _ : LayerFS υ ℓ × LayerFS υ ℓ => reader.readToEnd).run (o, n') =
        .ok data (o, n') := by
      rw [run_ask, hread]
    exact run_bind_of_ok hdata

/-- A destination that is in the way in the new root stops the operation there. -/
theorem serial_of_taken (h : existsAt (m.swap fun _ => newUpper).merged dest ≠ .ok false) :
    Serial (fun _ => newUpper) (SwappableRoot.throughMerged frames op src dest) m
      (crossed (fun _ => newUpper) frames op src dest m) := by
  have hstop : ∃ e, destFree dest (m.swap fun _ => newUpper).merged = .error e := by
    cases hcheck : destFree dest (m.swap fun _ => newUpper).merged with
    | error e => exact ⟨e, rfl⟩
    | ok _ => exact absurd (destFree_eq_ok.mp hcheck) h
  obtain ⟨e, he⟩ := hstop
  refine Or.inr ?_
  rw [crossed_of_error (run_onTwo_stops he), after, alone_throughMerged]
  exact congrArg outcome (ran_stops he).symm

/-- A source that the old root does not open stops the operation there. -/
theorem serial_of_unopened (hop : op ≠ .moveDir) (hfree : existsAt m.merged dest = .ok false)
    (hnew : existsAt (m.swap fun _ => newUpper).merged dest = .ok false)
    (h : openFile m.merged src = .error e) :
    Serial (fun _ => newUpper) (SwappableRoot.throughMerged frames op src dest) m
      (crossed (fun _ => newUpper) frames op src dest m) := by
  have hrun : (op.onOne frames src dest).run (m.rootAt m.side) = .error e (m.rootAt m.side) :=
    run_onOne_of_unopened hop hfree h
  refine Or.inl ?_
  rw [crossed_of_error (run_onTwo_of_unopened hop hnew h), outcome_before, ran, Thread.alone_atomic,
    onRoot, run_onPart, hrun]
  rfl

/-- A copy of bytes that both roots have is one on the new root. -/
theorem serial_of_same (hnew : existsAt (m.swap fun _ => newUpper).merged dest = .ok false)
    (hparent : ShowsDir (m.swap fun _ => newUpper).merged dest.dropLast)
    (hold : contentAt m.merged src = .ok data)
    (hsame : contentAt (m.swap fun _ => newUpper).merged src = .ok data) :
    Serial (fun _ => newUpper) (SwappableRoot.throughMerged frames .copyFile src dest) m
      (crossed (fun _ => newUpper) frames .copyFile src dest m) := by
  have hcross : (TwoPathOp.copyFile.onTwo frames src dest).run
      ((m.swap fun _ => newUpper).rootAt m.side, (m.swap fun _ => newUpper).rootAt m.side.other) =
      (Across.target (store dest data)).run ((m.swap fun _ => newUpper).rootAt m.side,
        (m.swap fun _ => newUpper).rootAt m.side.other) := by
    rw [rootAt_swap_self]
    exact run_acrossCopy_of_content hnew hparent hold
  have hone : (TwoPathOp.copyFile.onOne frames src dest).run
      ((m.swap fun _ => newUpper).rootAt m.side.other) =
      (store dest data).run ((m.swap fun _ => newUpper).rootAt m.side.other) :=
    (run_unlessThere_of_free hnew _).trans (run_copyFile_of_content hsame)
  refine Or.inr (congrArg outcome ?_)
  rw [crossed, ran, Thread.alone_atomic, onRoots, run_onPart, hcross, Across.target, run_onPart,
    after, alone_throughMerged, side_swap, ran, Thread.alone_atomic, onRoot, run_onPart, hone]
  cases (store dest data).run ((m.swap fun _ => newUpper).rootAt m.side.other) with
  | ok a n' => simp only [setRoot_rootAt]
  | error e n' => simp only [setRoot_rootAt]

/-- An operation that meets one root ends as before or as after the pivot. -/
theorem serial_of_one (h : OneRoot newUpper op src dest m k) :
    Serial (fun _ => newUpper) (SwappableRoot.throughMerged frames op src dest) m
      ((SwappableRoot.throughMerged frames op src dest).interrupted (swap fun _ => newUpper) k
        m) := by
  by_cases hfree : existsAt m.merged dest = .ok false
  · have hcheck := destFree_eq_ok.mpr hfree
    -- after three steps the root for the source was read, after four the one for the destination
    obtain hk | rfl | rfl | ⟨j, rfl⟩ : k ≤ 2 ∨ k = 3 ∨ k = 4 ∨ ∃ j, k = j + 5 := by
      rcases Nat.lt_or_ge k 5 with hlt | hge
      · omega
      · exact Or.inr (Or.inr (Or.inr ⟨k - 5, by omega⟩))
    · exact Or.inr (congrArg outcome (interrupted_early hcheck hk))
    · rw [interrupted_between hcheck]
      by_cases hnew : existsAt (m.swap fun _ => newUpper).merged dest = .ok false
      · rcases h with hk | hthere | hthere | ⟨hop, e, he⟩ | ⟨rfl, hparent, data, hold, hsame⟩
        · exact absurd rfl hk
        · exact absurd hfree hthere
        · exact absurd hnew hthere
        · exact serial_of_unopened hop hfree hnew he
        · exact serial_of_same hnew hparent hold hsame
      · exact serial_of_taken hnew
    · rw [interrupted_before_call hcheck]
      exact serial_late
    · exact Or.inl (congrArg outcome (interrupted_after_call hcheck j))
  · cases hstop : destFree dest m.merged with
    | ok _ => exact absurd (destFree_eq_ok.mp hstop) hfree
    | error e =>
      cases k with
      | zero => exact Or.inr (congrArg outcome (Thread.interrupted_zero _ m))
      | succ k => exact Or.inl (congrArg outcome (interrupted_stops hstop k))

/-! ### A crossing that goes through -/

section Crossing

open LayerFS (view hides_of_view view_of_upper)

variable {fs fs' : Stack} {p q : Path} {newUpper : Tree} {m : PvcMount Tree Tree} {node : Node}

theorem existsAt_false_iff : existsAt fs p = .ok false ↔ view fs p = none := by
  change LayerFS.existsAt p fs = .ok false ↔ _
  rw [LayerFS.existsAt_eq]
  cases view fs p <;> simp

theorem showsDir_of_view (h : view fs p = some .dir) : ShowsDir fs p := by
  refine ⟨(LayerFS.existsAt_eq fs p).trans (by rw [h]; rfl), ⟨.directory, 0⟩, ?_, rfl⟩
  exact (LayerFS.metadata_eq fs p).trans (by rw [h]; rfl)

/-- An entry that is made does not hide another. -/
theorem Placed.view_ne_none (h : Placed fs fs' p node) (hp : Unmarked p) (hq : Unmarked q)
    (hqp : q ≠ p) (hview : view fs q ≠ none) : view fs' q ≠ none := by
  rcases h.touched.view_cases h.lower hp hq hqp with ⟨-, hsame⟩ | ⟨-, hdir, -⟩
  · rwa [hsame]
  · obtain ⟨shown, hshown⟩ := Option.ne_none_iff_exists'.mp hview
    have hhides : fs'.upper.hides q = false := by
      rw [h.touched.hides hp hq hqp]
      exact hides_of_view hshown
    rw [view_of_upper hhides hdir]
    exact Option.some_ne_none _

/-- The pivot comes between the two reads of the root, and the file operation goes through: the
old root has the file and can drop it, and the new root can take it. -/
structure Crosses (newUpper : Tree) (op : TwoPathOp) (src dest : Path) (m : PvcMount Tree Tree) :
    Prop where
  files : op ≠ .moveDir
  plainSrc : PlainPath src
  plainDest : PlainPath dest
  source : ∃ c, view m.merged src = some (.file c)
  drops : op = .moveFile → ¬ NoRemoveFile m.merged src
  free : view m.merged dest = none
  freeNew : view (m.swap fun _ => newUpper).merged dest = none
  parent : view (m.swap fun _ => newUpper).merged dest.dropLast = some .dir
  target : newUpper.get? dest ≠ some .dir
  opened : ¬ Shut (m.swap fun _ => newUpper).merged dest

theorem returns_removeFile (h : ¬ NoRemoveFile fs p) :
    Returns (LayerFS.removeFile p : VfsM Stack Unit) fs := by
  rw [returns_removeFile_iff]
  cases hentry : fs.upper.get? p with
  | none => exact Or.inl ⟨rfl, fun hlower hblocked => h (Or.inr ⟨hentry, hlower, hblocked⟩)⟩
  | some node =>
    cases node with
    | file c => exact Or.inr ⟨c, rfl⟩
    | dir => exact absurd (Or.inl hentry) h

/-- The new root gets the file, and the call returns. -/
theorem Crosses.run (frames : Nat) (h : Crosses newUpper op src dest m) {c : Bytes}
    (hc : view m.merged src = some (.file c)) :
    ∃ roots, (op.onTwo frames src dest).run (m.merged, (m.swap fun _ => newUpper).merged) =
        .ok () roots ∧ Placed (m.swap fun _ => newUpper).merged roots.2 dest (.file c) := by
  have hnew : newUpper = (m.swap fun _ => newUpper).merged.upper :=
    (uppers_swap (fun _ => newUpper) m).symm
  have hstores : Returns (thenWrite (LayerFS.createFile dest) c)
      (m.swap fun _ => newUpper).merged :=
    returns_thenWrite_createFile_iff.mpr ⟨hnew ▸ h.target, h.opened⟩
  obtain ⟨⟨⟩, n', hstore⟩ := hstores
  have hplaced : Placed (m.swap fun _ => newUpper).merged n' dest (.file c) :=
    (writeNew_spec (createFile_spec _ dest)).ok rfl hstore
  -- the old root only opens the source, and the new one stores it
  have hcopy : (Across.copyFile src dest).run (m.merged, (m.swap fun _ => newUpper).merged) =
      .ok () (m.merged, n') := by
    rw [run_acrossCopy_of_content (existsAt_false_iff.mpr h.freeNew) (showsDir_of_view h.parent)
      (contentAt_eq_ok_iff.mpr hc)]
    exact run_onPart_eq_ok.mpr ⟨n', hstore, rfl⟩
  cases op with
  | copyFile => exact ⟨_, hcopy, hplaced⟩
  | moveFile =>
    obtain ⟨⟨⟩, o', hremove⟩ := returns_removeFile (h.drops rfl)
    have hdrop : (Across.source (FileSystem.removeFile src)).run (m.merged, n') =
        .ok () (o', n') :=
      run_onPart_eq_ok.mpr ⟨o', hremove, rfl⟩
    exact ⟨_, run_bind_eq_ok.mpr ⟨(), _, hcopy, hdrop⟩, hplaced⟩
  | moveDir => exact absurd rfl h.files

theorem merged_setRoot {ms : PvcMount Tree Tree} (h : fs.lower = ms.lowers) :
    (ms.setRoot ms.side fs).merged = fs := by
  obtain ⟨upper, lower⟩ := fs
  obtain rfl : lower = ms.lowers := h
  simp [merged, rootAt, setRoot]

/-- An operation on the new root that returns, and what the merged view shows then. -/
theorem run_of_outcome {x : VfsM Stack Unit} {ms : PvcMount Tree Tree} {shows}
    (h : (.ok (), shows) = outcome (ran (onRoot ms.side x) ms)) :
    ∃ fs, x.run ms.merged = .ok () fs ∧ (fs.lower = ms.lowers → shows = shown fs) := by
  have hside : ms.rootAt ms.side = ms.merged := rfl
  rw [ran, Thread.alone_atomic, onRoot, run_onPart, hside] at h
  cases hx : x.run ms.merged with
  | error e fs =>
    rw [hx] at h
    cases congrArg Prod.fst h
  | ok a fs =>
    rw [hx] at h
    refine ⟨fs, rfl, fun hlower => ?_⟩
    rw [← merged_setRoot hlower]
    exact congrArg Prod.snd h

/-- A crossing that goes through ends as one of the two orders only if it copied bytes that both
roots have. -/
theorem Crosses.same (h : Crosses newUpper op src dest m)
    (hserial : Serial (fun _ => newUpper) (SwappableRoot.throughMerged frames op src dest) m
      (crossed (fun _ => newUpper) frames op src dest m)) : OneRoot newUpper op src dest m 3 := by
  obtain ⟨c, hc⟩ := h.source
  obtain ⟨roots, hrun, hplaced⟩ := h.run frames hc
  have hfree := existsAt_false_iff.mpr h.freeNew
  have hmade : view roots.2 dest = some (.file c) :=
    view_of_upper (Tree.hides_eq_false.mpr hplaced.marker) hplaced.entry
  have houtcome : outcome (crossed (fun _ => newUpper) frames op src dest m) =
      (.ok (), shown roots.2) := by
    have hmerged : (((m.swap fun _ => newUpper).setRoot m.side roots.1).setRoot m.side.other
        roots.2).merged = roots.2 := merged_setRoot hplaced.lower
    rw [crossed_of_ok hrun, outcome, hmerged]
  rw [Serial, houtcome] at hserial
  rcases hserial with hbefore | hafter
  · -- before the pivot the destination does not show
    rw [outcome_before] at hbefore
    have hdest := congrArg (fun out => (out.2 dest).1) hbefore
    change existsAt roots.2 dest = existsAt (m.swap fun _ => newUpper).merged dest at hdest
    rw [hfree, existsAt_false_iff, hmade] at hdest
    cases hdest
  · rw [after, alone_throughMerged] at hafter
    obtain ⟨n', hn', hshown⟩ := run_of_outcome hafter
    cases op with
    | copyFile =>
      obtain ⟨c', hc', hplaced'⟩ := (copyFile_spec _ src dest).ok rfl
        ((run_unlessThere_of_free hfree _).symm.trans hn')
      have hdest := congrArg (fun shows => (shows dest).2.2.2) (hshown hplaced'.lower)
      change contentAt roots.2 dest = contentAt n' dest at hdest
      rw [contentAt_eq_ok_iff.mpr hmade] at hdest
      have hmade' := contentAt_eq_ok_iff.mp hdest.symm
      rw [view_of_upper (Tree.hides_eq_false.mpr hplaced'.marker) hplaced'.entry] at hmade'
      obtain rfl := Node.file.inj (Option.some.inj hmade')
      exact Or.inr (Or.inr (Or.inr (Or.inr ⟨rfl, showsDir_of_view h.parent, c',
        contentAt_eq_ok_iff.mpr hc, contentAt_eq_ok_iff.mpr hc'⟩)))
    | moveFile =>
      -- a move in the new root leaves no source there
      obtain ⟨⟨⟩, n₁, hcopy, hremove⟩ :=
        run_bind_eq_ok.mp ((run_unlessThere_of_free hfree _).symm.trans hn')
      obtain ⟨c', hc', hplaced'⟩ := (copyFile_spec _ src dest).ok rfl hcopy
      have hremoved : Removed n₁ n' src := (removeFile_spec n₁ src).ok rfl hremove
      have hsrc := congrArg (fun shows => (shows src).1)
        (hshown (hremoved.lower.trans hplaced'.lower))
      change existsAt roots.2 src = existsAt n' src at hsrc
      rw [existsAt_false_iff.mpr hremoved.view_eq_none, existsAt_false_iff] at hsrc
      have hne : src ≠ dest := by
        rintro rfl
        rw [h.freeNew] at hc'
        cases hc'
      refine absurd hsrc (hplaced.view_ne_none h.plainDest.unmarked h.plainSrc.unmarked hne ?_)
      rw [hc']
      exact Option.some_ne_none _
    | moveDir => exact absurd rfl h.files

end Crossing

/-- An operation that a pivot interrupts ends as before or as after the pivot if it meets one root,
over any layers; and a file operation that goes through between two roots does so only then. -/
theorem serial_iff :
    (∀ (newUpper : υ) (frames : Nat) (op : TwoPathOp) (src dest : Path) (m : PvcMount υ ℓ)
      (k : Nat), OneRoot newUpper op src dest m k →
      Serial (fun _ => newUpper) (SwappableRoot.throughMerged frames op src dest) m
        ((SwappableRoot.throughMerged frames op src dest).interrupted (swap fun _ => newUpper) k
          m)) ∧
    ∀ (newUpper : Tree) (frames : Nat) (op : TwoPathOp) (src dest : Path) (m : PvcMount Tree Tree)
      (k : Nat), Crosses newUpper op src dest m →
      (Serial (fun _ => newUpper) (SwappableRoot.throughMerged frames op src dest) m
        ((SwappableRoot.throughMerged frames op src dest).interrupted (swap fun _ => newUpper) k
          m) ↔ OneRoot newUpper op src dest m k) := by
  refine ⟨fun _ _ _ _ _ _ _ => serial_of_one, fun _ frames _ _ _ _ k h =>
    ⟨fun hserial => ?_, serial_of_one⟩⟩
  by_cases hk : k = 3
  · subst hk
    rw [interrupted_between (destFree_eq_ok.mpr (existsAt_false_iff.mpr h.free))] at hserial
    exact h.same hserial
  · exact Or.inl hk

theorem crosses_file (hop : op ≠ .moveDir) :
    Crosses fileMount.merged.upper op ["f".toList] ["g".toList] fileMount where
  files := hop
  plainSrc := by decide
  plainDest := by decide
  source := ⟨[1], by decide +kernel⟩
  drops _ := by
    rintro (hdir | ⟨hnone, -⟩)
    · exact absurd hdir (by decide +kernel)
    · exact absurd hnone (by decide +kernel)
  free := by decide +kernel
  freeNew := by decide +kernel
  parent := by decide +kernel
  target := by decide +kernel
  opened := by
    rintro (⟨q, c, hq, hfile⟩ | hdir)
    · obtain rfl := List.prefix_nil.mp hq
      rw [Tree.get?_root] at hfile
      cases hfile
    · exact absurd hdir (by decide +kernel)

/-- Between the two reads of the root, a file can be copied and cannot be moved. -/
theorem serial_iff_oneFile :
    Serial (fun _ => fileMount.merged.upper)
      (SwappableRoot.throughMerged 8 .copyFile ["f".toList] ["g".toList]) fileMount
      ((SwappableRoot.throughMerged 8 .copyFile ["f".toList] ["g".toList]).interrupted
        (swap fun _ => fileMount.merged.upper) 3 fileMount) ∧
    ¬ Serial (fun _ => fileMount.merged.upper)
      (SwappableRoot.throughMerged 8 .moveFile ["f".toList] ["g".toList]) fileMount
      ((SwappableRoot.throughMerged 8 .moveFile ["f".toList] ["g".toList]).interrupted
        (swap fun _ => fileMount.merged.upper) 3 fileMount) := by
  have hcopy : OneRoot fileMount.merged.upper .copyFile ["f".toList] ["g".toList]
      fileMount 3 := by
    have hparent : ShowsDir (fileMount.swap fun _ => fileMount.merged.upper).merged [] :=
      showsDir_of_view (by decide +kernel)
    exact Or.inr (Or.inr (Or.inr (Or.inr ⟨rfl, hparent, [1],
      contentAt_eq_ok_iff.mpr (by decide +kernel), contentAt_eq_ok_iff.mpr (by decide +kernel)⟩)))
  have hcross : Crosses fileMount.merged.upper .moveFile ["f".toList] ["g".toList]
      fileMount := crosses_file (by decide)
  refine ⟨serial_iff.1 _ 8 .copyFile _ _ _ 3 hcopy, fun hserial => ?_⟩
  rcases ((serial_iff (υ := Tree) (ℓ := Tree)).2 _ 8 .moveFile _ _ _ 3 hcross).mp hserial with
    hk | hthere | hthere | ⟨-, e, he⟩ | ⟨hop, -⟩
  · exact absurd rfl hk
  · exact hthere (existsAt_false_iff.mpr hcross.free)
  · exact hthere (existsAt_false_iff.mpr hcross.freeNew)
  · have hopens : contentAt fileMount.merged ["f".toList] = .ok [1] :=
      contentAt_eq_ok_iff.mpr (by decide +kernel)
    obtain ⟨reader, hreader, -⟩ := except_bind_eq_ok.mp hopens
    rw [he] at hreader
    cases hreader
  · cases hop

/-- A pivot to a copy of the upper directory, between the two reads of the root: the file
is moved, and stays where it was. -/
theorem moved_and_kept :
    ¬ Serial (fun _ => fileMount.merged.upper)
      (SwappableRoot.throughMerged 8 .moveFile ["f".toList] ["g".toList]) fileMount
      ((SwappableRoot.throughMerged 8 .moveFile ["f".toList] ["g".toList]).interrupted
        (swap fun _ => fileMount.merged.upper) 3 fileMount) := by
  have hrun : ∀ name ∈ ["f".toList, "g".toList],
      ((outcome ((SwappableRoot.throughMerged 8 .moveFile ["f".toList] ["g".toList]).interrupted
        (swap fun _ => fileMount.merged.upper) 3 fileMount)).2 [name]).1 = .ok true := by
    decide +kernel
  rintro (h | h)
  · -- before the pivot, `g` was made in the old root
    have hg := hrun "g".toList (by decide)
    rw [h] at hg
    exact absurd hg (by decide +kernel)
  · have hf := hrun "f".toList (by decide)
    rw [h] at hf
    exact absurd hf (by decide +kernel)

end Rspacefs
