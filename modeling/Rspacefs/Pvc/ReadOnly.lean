import Rspacefs.Core.Refuse
import Rspacefs.Pvc.Capture
import Rspacefs.Pvc.Mount

/-!
# Read-only mounts

The access mode of a PVC is stored in the mount, and of the operations on it only
`pivot_upper` looks there: the calls on the merged view go to a `LayerFS` that does not know
the mode, and `capture_layer` asks for the physical directory alone. So a `ReadOnly` mount
stays as it was built as long as each call is refused for a reason of its own.

## Main definitions

* `Request` — an operation on a mount
* `Request.Refused` — the operation is refused, whatever the access mode

## Main results

* `ViewOp.refuses` — a refused call on the merged view changes nothing
* `readOnly_run` — runs of a read-only mount
-/

namespace Rspacefs.Pvc

open Lib LayerFS

namespace ViewOp

/-- Does the call ask for a change? -/
def mutating : ViewOp → Bool
  | .existsAt _ | .metadata _ | .openFile _ | .readDir _ => false
  | _ => true

/-- When a call on the layers is refused; reading is not. -/
def Refused (fs : Stack) : ViewOp → Prop
  | .existsAt _ | .metadata _ | .openFile _ | .readDir _ => True
  | .createDir path => NoCreateDir fs path
  | .createFile path => NoCreateFile fs path
  | .appendFile path => NoAppendFile fs path
  | .removeFile path => NoRemoveFile fs path
  | .removeDir path => NoRemoveDir fs path
  | .copyFile src dest => NoCopy fs src dest
  | .moveFile src dest => NoCopy fs src dest
  | .moveDir frames _ dest => NoMoveDir fs frames dest

variable {w : World Tree Tree} {root : Root Tree} {r : SwappableRoot}

theorem run_current (h : w.locks[r.inner]? = some ⟨root, false⟩) :
    r.current.run w = .ok root w := by
  rw [SwappableRoot.current, run_ask, h]

theorem refuses_onRoot {α : Type} {x : VfsM Stack α} (h : Refuses x (w.layers root)) :
    Refuses (World.onRoot root x) w :=
  Refuses.onPart (s := w) h (by simp [World.layers])

theorem refuses_delegate {α : Type} {x : VfsM Stack α}
    (hroot : w.locks[r.inner]? = some ⟨root, false⟩) (h : Refuses x (w.layers root)) :
    Refuses (r.delegate x) w :=
  Refuses.after (run_current hroot) (refuses_onRoot h)

/-- Asking a clone changes nothing. -/
theorem run_delegate_ask {α : Type} (hroot : w.locks[r.inner]? = some ⟨root, false⟩)
    (g : Stack → VfsResult α) :
    (r.delegate (ask g)).run w = match g (w.layers root) with
      | .ok a => .ok a w
      | .error e => .error e w := by
  rw [Session.delegate_eq hroot, World.onRoot, run_onPart, run_ask]
  cases g (w.layers root) <;> simp [World.layers]

theorem run_existsAt (hroot : w.locks[r.inner]? = some ⟨root, false⟩) (path : Path) :
    (r.existsAt path).run w = .ok (view (w.layers root) path).isSome w := by
  rw [SwappableRoot.existsAt, run_delegate_ask hroot, LayerFS.existsAt_eq]

/-- Looking up the parent changes nothing. -/
theorem run_getParent (hroot : w.locks[r.inner]? = some ⟨root, false⟩) (action : String)
    (path : Path) :
    (r.getParent action path).run w = .ok () w ∨ Refuses (r.getParent action path) w := by
  have hexists := run_existsAt hroot path.dropLast
  cases hview : view (w.layers root) path.dropLast with
  | none =>
    rw [hview] at hexists
    exact .inr (Refuses.after hexists (Refuses.throw _))
  | some node =>
    rw [hview] at hexists
    have hmeta : (r.metadata path.dropLast).run w = .ok ⟨node.fileType, node.len⟩ w := by
      rw [SwappableRoot.metadata, run_delegate_ask hroot, LayerFS.metadata_eq, hview]
    cases node with
    | dir => exact .inl (run_bind_eq_ok.mpr ⟨_, _, hexists, run_bind_eq_ok.mpr ⟨_, _, hmeta, rfl⟩⟩)
    | file c => exact .inr (Refuses.after hexists (Refuses.after hmeta (Refuses.throw _)))

theorem refuses_getParent_bind {α : Type} {x : EStateM VfsError (World Tree Tree) α}
    (hroot : w.locks[r.inner]? = some ⟨root, false⟩) (action : String) (path : Path)
    (h : Refuses x w) : Refuses (r.getParent action path >>= fun _ => x) w := by
  rcases run_getParent hroot action path with hok | hno
  · exact h.after hok
  · exact hno.bind _

theorem refuses_unlessThere (hroot : w.locks[r.inner]? = some ⟨root, false⟩) {dest : Path}
    {x : VfsM Stack Unit} (h : Refuses x (w.layers root)) : Refuses (r.unlessThere dest x) w := by
  refine Refuses.after (run_existsAt hroot dest) ?_
  split
  · exact Refuses.throw _
  · exact refuses_delegate hroot h

/-- A call that the layers refuse is refused. -/
theorem refuses (hroot : w.locks[r.inner]? = some ⟨root, false⟩) {op : ViewOp}
    (hmut : op.mutating = true) (h : op.Refused (w.layers root)) : Refuses (op.run r) w := by
  cases op with
  | existsAt path => cases hmut
  | metadata path => cases hmut
  | openFile path => cases hmut
  | readDir path => cases hmut
  | createDir path =>
    apply Refuses.map
    exact refuses_getParent_bind hroot _ _ (refuses_delegate hroot (NoCreateDir.refuses h))
  | createFile path =>
    apply Refuses.map
    apply refuses_getParent_bind hroot
    refine Refuses.after (run_current hroot) ?_
    exact (refuses_onRoot (NoCreateFile.refuses h)).bind _
  | appendFile path =>
    apply Refuses.map
    refine Refuses.after (run_current hroot) ?_
    exact (refuses_onRoot (NoAppendFile.refuses h)).bind _
  | removeFile path => exact (refuses_delegate hroot (NoRemoveFile.refuses h)).map _
  | removeDir path => exact (refuses_delegate hroot (NoRemoveDir.refuses h)).map _
  | copyFile src dest => exact (refuses_unlessThere hroot (NoCopy.refuses_copyFile h)).map _
  | moveFile src dest => exact (refuses_unlessThere hroot (NoCopy.refuses_moveFile h)).map _
  | moveDir frames src dest => exact (refuses_unlessThere hroot (NoMoveDir.refuses h)).map _

end ViewOp

/-- An operation on a mount. -/
inductive Request
  | view (op : ViewOp)
  | pivot (newUpper : DirId) (newUpperPhysical : Option PathBuf) (handlesOnOldUpper : Option Nat)
  /-- On a host, where `disk` is what stands at a physical path. -/
  | capture (host : Host) (disk : PathBuf → DiskTree) (opts : CaptureOptions)

namespace Session

/-- `capture_layer`. -/
def capture (host : Host) (disk : PathBuf → DiskTree) (opts : CaptureOptions) :
    EStateM PvcError (Session Tree Tree) (CaptureReport × Bytes) :=
  ask fun s => host.captureLayer (s.pvc.upperPhysical.map disk) opts

/-- The merged view. -/
def layers (s : Session Tree Tree) : Stack := s.world.layers ⟨s.pvc.upper, s.pvc.lowers⟩

end Session

namespace Request

open Session

def run : Request → EStateM PvcError (Session Tree Tree) Unit
  | .view op => (fun _ => ()) <$> EStateM.adaptExcept .vfs (call 0 op)
  | .pivot newUpper physical onOld => (fun _ => ()) <$> pivotUpper newUpper physical onOld
  | .capture host disk opts => (fun _ => ()) <$> Session.capture host disk opts

/-- Is an error promised on a read-only mount? -/
def mutating : Request → Bool
  | .view op => op.mutating
  | _ => true

/-- The operation is refused, whatever a call on the merged view or a capture makes of the
access mode. -/
def Refused (s : Session Tree Tree) : Request → Prop
  | .view op => op.Refused s.layers
  | .pivot .. => True
  | .capture host disk opts => ∀ physical, s.pvc.upperPhysical = some physical →
      host.creates = false ∨ host.encodes opts.zstdLevel = false ∨
        ∃ e, host.entriesOf (disk physical) = .error e

end Request

/-- A capture that cannot begin, or whose walk fails. -/
theorem captureLayer_error {host : Host} {u : Option DiskTree} {opts : CaptureOptions}
    (h : ∀ t, u = some t → host.creates = false ∨ host.encodes opts.zstdLevel = false ∨
      ∃ e, host.entriesOf t = .error e) : ∃ e, host.captureLayer u opts = .error e := by
  cases hrun : host.captureLayer u opts with
  | error e => exact ⟨e, rfl⟩
  | ok result =>
    cases u with
    | none => cases hrun
    | some t =>
      obtain ⟨es, hes, -, -⟩ := host.captureLayer_eq_ok hrun
      rcases h t rfl with hcreate | hencode | ⟨e, he⟩
      · simp [Host.captureLayer, hcreate] at hrun
      · simp [Host.captureLayer, hencode] at hrun
      · rw [hes] at he
        cases he

namespace Session

variable {s : Session Tree Tree} {r : Request}

/-- A read-only mount whose lock is as it was built. -/
structure Sealed (s : Session Tree Tree) : Prop where
  mode : s.pvc.accessMode = .readOnly
  root : s.world.locks[s.pvc.merged.inner]? = some ⟨⟨s.pvc.upper, s.pvc.lowers⟩, false⟩

theorem Sealed.refuses (h : Sealed s) (hmut : r.mutating = true) (hr : r.Refused s) :
    Refuses r.run s := by
  cases r with
  | view op =>
    have hcall : Refuses (call 0 op) s := by
      refine Refuses.after (EStateM.run_get s) ?_
      exact Refuses.bind (Refuses.onPart (s := s) (ViewOp.refuses h.root hmut hr) rfl) _
    exact (hcall.adaptExcept _).map _
  | pivot newUpper physical onOld =>
    have hcheck : checkPivot s.pvc =
        .error (.invalidArgument "pivot_upper not allowed on a ReadOnly PVC") := if_pos h.mode
    have hpivot : Refuses (pivotUpper newUpper physical onOld) s :=
      Refuses.after (EStateM.run_get s)
        (Refuses.bind (Refuses.ask (g := fun _ => checkPivot s.pvc) hcheck) _)
    exact hpivot.map _
  | capture host disk opts =>
    obtain ⟨e, he⟩ := captureLayer_error (u := s.pvc.upperPhysical.map disk) fun t ht => by
      obtain ⟨physical, hphysical, rfl⟩ := Option.map_eq_some_iff.mp ht
      exact hr physical hphysical
    have hcapture : Refuses (Session.capture host disk opts) s := Refuses.ask he
    exact hcapture.map _

end Session

end Rspacefs.Pvc
