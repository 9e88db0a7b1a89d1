import Rspacefs.Lib.Run
import Rspacefs.Lib.Interning
import Rspacefs.Fuse.Daemon
import Rspacefs.Core.Frame

/-!
# What a handler leaves alone

The state has four parts: the overlay, the inode tables, the open files and the
registered backing files. For each handler there is one rule, which says of which parts
it keeps the rest. Few handlers change the open files: `open` and `create`, which add a
handle never given out before, and `write`, `fsync` and `release`, which work on the one
handle they name.

## Main definitions

* `files`, `tables` — the open files with the next handle, and the inode tables
* `RootFree`, `TablesFree`, `FilesFree`, `OpenFree`, `CacheFree` — what a part does not contain
* `Stable` — conditions on these that survive opening a file and working on handles

## Main results

* `step_stable` — such a condition survives every request
* `openFiles_frame` — a handle's file changes only by requests on that handle
* `issued_run` — open files have handles that were given out
-/

namespace Rspacefs

open Lib

variable {υ ℓ α β γ : Type} {s : Fuse υ ℓ} {path : Path} {ino : Ino} {fh fh' : Fh}
  {file : Option OpenFile}

namespace Fuse

/-- The open files, and the next handle. -/
def files (s : Fuse υ ℓ) : (Fh → Option OpenFile) × Fh := (s.openFiles, s.nextFh)

/-- The lower layers. -/
def lowers (s : Fuse υ ℓ) : List ℓ := s.root.lower

/-- The inode tables of a state. -/
def tables (s : Fuse υ ℓ) : Interned Path := ⟨s.inodes, s.paths, s.nextIno⟩

/-! ### Parts of the state -/

/-- A part of the state that does not contain the overlay. -/
class RootFree (g : Fuse υ ℓ → γ) : Prop where
  root : ∀ s fs, g { s with root := fs } = g s

/-- A part of the state that does not contain the upper layer. -/
class UpperFree (g : Fuse υ ℓ → γ) : Prop where
  upper : ∀ s fs, fs.lower = s.root.lower → g { s with root := fs } = g s

instance (g : Fuse υ ℓ → γ) [hg : RootFree g] : UpperFree g := ⟨fun s fs _ => hg.root s fs⟩

/-- A part of the state that does not contain the inode tables. -/
class TablesFree (g : Fuse υ ℓ → γ) : Prop where
  tables : ∀ s i p n, g { s with inodes := i, paths := p, nextIno := n } = g s

/-- A part of the state that does not contain the open files. -/
class FilesFree (g : Fuse υ ℓ → γ) : Prop where
  files : ∀ s t n, g { s with openFiles := t, nextFh := n } = g s

/-- A part of the state that contains at most the next handle of the open files. -/
class OpenFree (g : Fuse υ ℓ → γ) : Prop where
  opened : ∀ s t, g { s with openFiles := t } = g s

instance (g : Fuse υ ℓ → γ) [hg : FilesFree g] : OpenFree g := ⟨fun s t => hg.files s t s.nextFh⟩

/-- A part of the state that does not contain the backing files. -/
class CacheFree (g : Fuse υ ℓ → γ) : Prop where
  cache : ∀ s c n, g { s with backingCache := c, nextBacking := n } = g s

instance : TablesFree (root : Fuse υ ℓ → LayerFS υ ℓ) := ⟨fun _ _ _ _ => rfl⟩
instance : FilesFree (root : Fuse υ ℓ → LayerFS υ ℓ) := ⟨fun _ _ _ => rfl⟩
instance : CacheFree (root : Fuse υ ℓ → LayerFS υ ℓ) := ⟨fun _ _ _ => rfl⟩

instance : UpperFree (lowers : Fuse υ ℓ → _) := ⟨fun _ _ h => h⟩
instance : TablesFree (lowers : Fuse υ ℓ → _) := ⟨fun _ _ _ _ => rfl⟩
instance : FilesFree (lowers : Fuse υ ℓ → _) := ⟨fun _ _ _ => rfl⟩
instance : CacheFree (lowers : Fuse υ ℓ → _) := ⟨fun _ _ _ => rfl⟩

instance : RootFree (files : Fuse υ ℓ → _) := ⟨fun _ _ => rfl⟩
instance : TablesFree (files : Fuse υ ℓ → _) := ⟨fun _ _ _ _ => rfl⟩
instance : CacheFree (files : Fuse υ ℓ → _) := ⟨fun _ _ _ => rfl⟩

instance : RootFree (tables : Fuse υ ℓ → _) := ⟨fun _ _ => rfl⟩
instance : FilesFree (tables : Fuse υ ℓ → _) := ⟨fun _ _ _ => rfl⟩
instance : CacheFree (tables : Fuse υ ℓ → _) := ⟨fun _ _ _ => rfl⟩

/-! ### The parts of a handler -/

section Parts

variable {g : Fuse υ ℓ → γ}

theorem pathOf_keeps : Keeps g (pathOf ino) := Keeps.ask _

theorem join_keeps (parent : Path) (name : Name) : Keeps g (join parent name) :=
  Keeps.ite (Keeps.pure _) (Keeps.throw _)

theorem failIf_keeps (e : Errno) (c : Fuse υ ℓ → Bool) : Keeps g (failIf e c) := Keeps.ask _

theorem fileOf_keeps : Keeps g (fileOf fh) := Keeps.ask _

theorem doIf_keeps {c : Bool} {x : FuseM υ ℓ Unit} (hx : Keeps g x) : Keeps g (doIf c x) :=
  Keeps.ite hx (Keeps.pure _)

theorem run_internPath (path : Path) (s : Fuse υ ℓ) :
    (internPath path).run s = match s.paths path with
      | some ino => .ok ino s
      | none => .ok s.nextIno { s with
          paths := Function.update s.paths path (some s.nextIno)
          inodes := Function.update s.inodes s.nextIno (some path)
          nextIno := s.nextIno + 1 } := by
  change (match s.paths path with
    | some ino => Pure.pure ino
    | none => _ : FuseM υ ℓ Ino).run s = _
  cases s.paths path <;> rfl

theorem internPath_keeps [hg : TablesFree g] : Keeps g (internPath path) := by
  rintro b s rfl
  rw [run_internPath]
  cases s.paths path with
  | some ino => rfl
  | none => exact hg.tables s _ _ _

theorem unbind_keeps [hg : TablesFree g] : Keeps g (unbind path) := by
  refine Keeps.modify fun s => ?_
  cases s.paths path with
  | some ino => exact hg.tables s _ _ _
  | none => rfl

theorem rebind_keeps [hg : TablesFree g] (src dst : Path) : Keeps g (rebind src dst) := by
  refine Keeps.modify fun s => ?_
  cases s.paths src with
  | some ino => exact hg.tables s _ _ _
  | none => rfl

theorem allocFh_keeps [hg : FilesFree g] : Keeps g allocFh := by
  rintro b s rfl
  exact hg.files s _ _

theorem insertFile_keeps [hg : OpenFree g] (file : OpenFile) : Keeps g (insertFile fh file) :=
  Keeps.modify fun s => hg.opened s _

theorem removeFile_keeps [hg : OpenFree g] : Keeps g (removeFile fh) :=
  Keeps.modify fun s => hg.opened s _

theorem onRoot_keeps [hg : RootFree g] {errno : Errno} (x : VfsM (LayerFS υ ℓ) α) :
    Keeps g (onRoot errno x) := by
  rintro b s rfl
  rw [onRoot, run_onPart]
  cases (EStateM.adaptExcept (fun _ => errno) x).run s.root with
  | ok a fs => exact hg.root s fs
  | error e fs => exact hg.root s fs

/-- No call on the overlay changes a lower layer. -/
theorem onRoot_upper [hg : UpperFree g] {errno : Errno} {x : VfsM (LayerFS υ ℓ) α}
    (hx : Keeps LayerFS.lower x) : Keeps g (onRoot errno x) := by
  rintro b s rfl
  rw [onRoot, run_onPart, EStateM.run_adaptExcept]
  cases hrun : x.run s.root with
  | ok a fs => exact hg.upper s fs ((hx s.root.lower).ok rfl hrun)
  | error e fs => exact hg.upper s fs ((hx s.root.lower).error rfl hrun)

theorem onUpperDir_keeps [UpperFree g] (x : VfsM υ α) : Keeps g (onUpperDir x) :=
  onRoot_upper (LayerFS.onUpper_lower x)

theorem onRoot_ask_keeps {errno : Errno} (h : LayerFS υ ℓ → VfsResult α) :
    Keeps g (onRoot errno (ask h)) := by
  rintro b s rfl
  rw [onRoot, run_onPart, EStateM.run_adaptExcept, run_ask]
  cases h s.root <;> rfl

/-! ### Handlers on open files -/

theorem read_keeps (offset size : Nat) : Keeps g (read fh offset size) := by
  refine Keeps.bind fileOf_keeps fun file => ?_
  cases file with
  | passthrough backing => exact Keeps.throw _
  | streaming reader =>
    dsimp only
    split
    · exact Keeps.pure _
    · exact Keeps.throw _
  | buffered path data dirty writable => exact Keeps.pure _

theorem write_keeps [OpenFree g] (offset : Nat) (data : Bytes) :
    Keeps g (write fh offset data) := by
  refine Keeps.bind fileOf_keeps fun file => ?_
  cases file with
  | passthrough backing => exact Keeps.throw _
  | streaming reader => exact Keeps.throw _
  | buffered path buf dirty writable =>
    exact Keeps.bind (failIf_keeps _ _) fun _ =>
      Keeps.bind (insertFile_keeps _) fun _ => Keeps.pure _

end Parts

/-! ### The open files -/

/-- A condition on the open files and the next handle that survives opening a file, and
changes to the files behind the handles in `Own`. -/
structure Stable (I : (Fh → Option OpenFile) × Fh → Prop) (Own : Fh → Prop) : Prop where
  alloc : ∀ t n, I (t, n) → I (t, n + 1)
  opened : ∀ t n file, I (t, n) → I (Function.update t n (some file), n + 1)
  own : ∀ t n fh file, Own fh → (t fh).isSome → I (t, n) → I (Function.update t fh file, n)

section Files

variable {I : (Fh → Option OpenFile) × Fh → Prop} {Own : Fh → Prop} {E : Fuse υ ℓ → Prop}

/-- A handle is given out, and the file that is opened goes in at it. -/
theorem allocFh_stable (h : Stable I Own) :
    Triple (fun s => I (files s)) (allocFh : FuseM υ ℓ Fh)
      (fun new s => I (files s) ∧
        ∀ file, I (Function.update s.openFiles new (some file), s.nextFh)) E :=
  fun _ hs => ⟨h.alloc _ _ hs, fun file => h.opened _ _ file hs⟩

theorem insertFile_stable {new : OpenFile} :
    Triple (fun s => I (Function.update s.openFiles fh (some new), s.nextFh))
      (insertFile fh new : FuseM υ ℓ Unit) (fun _ s => I (files s)) E :=
  Triple.modify fun _ hs => hs

theorem fileOf_stable :
    Triple (fun s => I (files s)) (fileOf fh : FuseM υ ℓ OpenFile)
      (fun _ s => I (files s) ∧ (s.openFiles fh).isSome) (fun s => I (files s)) := by
  refine Triple.ask (fun s f hs hf => ⟨hs, ?_⟩) fun _ hs => hs
  cases hopen : s.openFiles fh with
  | none => simp [hopen] at hf
  | some file => rfl

/-- Storing a new state of a file that is open. -/
theorem updateFile_stable (h : Stable I Own) (hown : Own fh) (new : OpenFile) :
    Triple (fun s => I (files s) ∧ (s.openFiles fh).isSome)
      (insertFile fh new : FuseM υ ℓ Unit) (fun _ s => I (files s)) E :=
  Triple.modify fun _ hs => h.own _ _ _ _ hown hs.2 hs.1

/-- What does not touch the open files keeps it that one is open. -/
theorem open_triple {x : FuseM υ ℓ α} (hx : Keeps files x) :
    Triple (fun s => I (files s) ∧ (s.openFiles fh).isSome) x
      (fun _ s => I (files s) ∧ (s.openFiles fh).isSome)
      (fun s => I (files s) ∧ (s.openFiles fh).isSome) :=
  hx.triple (I := fun t => I t ∧ (t.1 fh).isSome)

theorem write_stable (h : Stable I Own) (hown : Own fh) (offset : Nat) (data : Bytes) :
    Triple (fun s => I (files s)) (write fh offset data : FuseM υ ℓ Reply)
      (fun _ s => I (files s)) (fun s => I (files s)) := by
  refine Triple.bind fileOf_stable fun f => ?_
  cases f with
  | passthrough backing => exact Triple.throw _ fun _ h => h.1
  | streaming reader => exact Triple.throw _ fun _ h => h.1
  | buffered path buf dirty writable =>
    refine Triple.bind ((open_triple (failIf_keeps _ _)).weaken (fun _ h => h)
      (fun _ _ h => h) fun _ h => h.1) fun _ => ?_
    exact Triple.bind (updateFile_stable h hown _) fun _ => Triple.pure _ fun _ h => h

end Files

section Handlers

variable [PhysicalFS υ]

variable {g : Fuse υ ℓ → γ}

theorem dropWhiteout_keeps [UpperFree g] : Keeps g (dropWhiteout path) :=
  Keeps.attempt (onUpperDir_keeps _)

variable [PhysicalFS ℓ]

theorem attrNow_keeps (ft : VfsFileType) : Keeps g (attrNow ino path ft) := Keeps.ask _

theorem attrForPath_keeps : Keeps g (attrForPath ino path) :=
  Keeps.bind (failIf_keeps _ _) fun _ => attrNow_keeps _

/-! ### Handlers that only look -/

theorem lookup_keeps [TablesFree g] (parent : Ino) (name : Name) :
    Keeps g (lookup parent name) :=
  Keeps.bind pathOf_keeps fun _ => Keeps.bind (join_keeps _ _) fun _ =>
    Keeps.bind (failIf_keeps _ _) fun _ => Keeps.bind internPath_keeps fun _ =>
      Keeps.bind (attrNow_keeps _) fun _ => Keeps.pure _

theorem getattr_keeps : Keeps g (getattr ino) :=
  Keeps.bind pathOf_keeps fun _ => Keeps.bind attrForPath_keeps fun _ => Keeps.pure _

theorem listEntries_keeps [TablesFree g] (names : List Name) : Keeps g (listEntries path names) := by
  induction names with
  | nil => exact Keeps.pure _
  | cons name names ih =>
    exact Keeps.bind (Keeps.ask _) fun _ => Keeps.bind internPath_keeps fun _ =>
      Keeps.bind ih fun _ => Keeps.pure _

theorem readdir_keeps [TablesFree g] (offset capacity : Nat) :
    Keeps g (readdir ino offset capacity) :=
  Keeps.bind pathOf_keeps fun _ => Keeps.bind (onRoot_ask_keeps _) fun _ =>
    Keeps.bind (Keeps.ask _) fun _ => Keeps.bind (listEntries_keeps _) fun _ => Keeps.pure _

theorem readlink_keeps : Keeps g (readlink ino) :=
  Keeps.bind pathOf_keeps fun _ => Keeps.ask _

/-! ### Opening -/

theorem run_openBacking (backed : Bool) (s : Fuse υ ℓ) :
    (openBacking ino path backed).run s = match physicalForWithLayer path s.root with
      | none => .ok none s
      | some layer =>
        if s.verifiedLayers.getD layer false then .ok none s
        else match (s.backingCache ino).filter s.live with
          | some backing => .ok (some backing) s
          | none =>
            if backed then
              .ok (some ⟨s.nextBacking, layer, path⟩) { s with
                backingCache := Function.update s.backingCache ino
                  (some ⟨s.nextBacking, layer, path⟩)
                nextBacking := s.nextBacking + 1 }
            else .ok none s := by
  rw [openBacking, EStateM.run_bind, EStateM.run_get]
  simp only
  cases physicalForWithLayer path s.root with
  | none => rfl
  | some layer =>
    simp only
    split
    · rfl
    · cases (s.backingCache ino).filter s.live with
      | some backing => rfl
      | none => cases backed <;> rfl

/-- Without a registered backing file, and without a kernel that takes one, there is none. -/
theorem run_openBacking_none (hunbacked : s.backingCache ino = none) :
    (openBacking ino path false).run s = .ok none s := by
  rw [run_openBacking, hunbacked]
  cases physicalForWithLayer path s.root with
  | none => rfl
  | some layer =>
    dsimp only
    split
    · rfl
    · rfl

theorem openBacking_keeps [hg : CacheFree g] (backed : Bool) :
    Keeps g (openBacking ino path backed) := by
  rintro b s rfl
  rw [run_openBacking]
  cases physicalForWithLayer path s.root with
  | none => rfl
  | some layer =>
    -- verified, still registered, and newly registered or refused
    dsimp only
    split
    · rfl
    · split
      · rfl
      · split
        · exact hg.cache s _ _
        · rfl

theorem openInode_keeps [FilesFree g] [CacheFree g] (flags : OpenFlags) (backed : Bool) :
    Keeps g (openInode ino flags backed) := by
  refine Keeps.bind pathOf_keeps fun path => Keeps.bind allocFh_keeps fun new =>
    Keeps.ite ?_ (Keeps.bind (openBacking_keeps backed) fun backing => ?_)
  · exact Keeps.bind (failIf_keeps _ _) fun _ => Keeps.bind (Keeps.ask _) fun _ =>
      Keeps.bind (insertFile_keeps _) fun _ => Keeps.pure _
  · cases backing with
    | some backing => exact Keeps.bind (insertFile_keeps _) fun _ => Keeps.pure _
    | none =>
      exact Keeps.bind (failIf_keeps _ _) fun _ => Keeps.bind (onRoot_ask_keeps _) fun _ =>
        Keeps.bind (insertFile_keeps _) fun _ => Keeps.pure _

/-! ### Handlers that change the overlay -/

theorem writeBack_keeps [UpperFree g] (data : Bytes) : Keeps g (writeBack path data) :=
  Keeps.bind (onRoot_upper VfsPath.createFile_lower) fun _ =>
    onRoot_upper (LayerFS.onUpper_lower _)

theorem createIn_keeps [UpperFree g] (c : Bool) :
    Keeps g (doIf c do let _ ← onRoot .eio (VfsPath.createFile path) : FuseM υ ℓ Unit) :=
  doIf_keeps (Keeps.bind (onRoot_upper VfsPath.createFile_lower) fun _ => Keeps.pure _)

theorem copyEntry_keeps [UpperFree g] (layer : ℓ) : Keeps g (copyEntry layer path) := by
  unfold copyEntry
  split
  · exact Keeps.throw _
  · refine Keeps.bind (onUpperDir_keeps _) fun _ => ?_
    split
    · split
      · exact onUpperDir_keeps _
      · exact Keeps.throw _
    · exact onUpperDir_keeps _
    · exact onUpperDir_keeps _

theorem ensureInUpper_keeps [UpperFree g] : Keeps g (ensureInUpper path) :=
  Keeps.bind (Keeps.ask _) fun _ => Keeps.ite (Keeps.pure _)
    (Keeps.bind (Keeps.ask _) fun _ => Keeps.bind (copyEntry_keeps _) fun _ => dropWhiteout_keeps)

theorem setattr_keeps [UpperFree g] (attrs : SetAttr) : Keeps g (setattr ino attrs) :=
  Keeps.bind pathOf_keeps fun _ => Keeps.bind (createIn_keeps _) fun _ =>
    Keeps.bind (doIf_keeps (Keeps.bind ensureInUpper_keeps fun _ => Keeps.ask _)) fun _ =>
      Keeps.bind attrForPath_keeps fun _ => Keeps.pure _

theorem changeXattr_keeps [UpperFree g] (applied : Except Errno Unit) :
    Keeps g (changeXattr ino applied) :=
  Keeps.bind pathOf_keeps fun _ => Keeps.bind ensureInUpper_keeps fun _ =>
    Keeps.bind (Keeps.ask _) fun _ => Keeps.pure _

theorem mkdir_keeps [UpperFree g] [TablesFree g] (parent : Ino) (name : Name) :
    Keeps g (mkdir parent name) :=
  Keeps.bind pathOf_keeps fun _ => Keeps.bind (join_keeps _ _) fun _ =>
    Keeps.bind (failIf_keeps _ _) fun _ => Keeps.bind (onRoot_upper VfsPath.createDir_lower) fun _ =>
      Keeps.bind internPath_keeps fun _ => Keeps.bind (attrNow_keeps _) fun _ => Keeps.pure _

theorem rmdir_keeps [UpperFree g] [TablesFree g] (parent : Ino) (name : Name) :
    Keeps g (rmdir parent name) :=
  Keeps.bind pathOf_keeps fun _ => Keeps.bind (join_keeps _ _) fun _ =>
    Keeps.bind (failIf_keeps _ _) fun _ =>
      Keeps.bind (onRoot_upper (LayerFS.removeWith_lower _)) fun _ =>
        Keeps.bind unbind_keeps fun _ => Keeps.pure _

theorem unlink_keeps [UpperFree g] [TablesFree g] (parent : Ino) (name : Name) :
    Keeps g (unlink parent name) :=
  Keeps.bind pathOf_keeps fun _ => Keeps.bind (join_keeps _ _) fun _ =>
    Keeps.bind (failIf_keeps _ _) fun _ =>
      Keeps.bind (onRoot_upper (LayerFS.removeWith_lower _)) fun _ =>
        Keeps.bind unbind_keeps fun _ => Keeps.pure _

theorem rename_keeps [UpperFree g] [TablesFree g] (parent : Ino) (name : Name) (newparent : Ino)
    (newname : Name) : Keeps g (rename parent name newparent newname) := by
  refine Keeps.bind pathOf_keeps fun _ => Keeps.bind pathOf_keeps fun _ =>
    Keeps.bind (join_keeps _ _) fun _ => Keeps.bind (join_keeps _ _) fun _ =>
      Keeps.bind (Keeps.ask _) fun frames => Keeps.bind (Keeps.ask _) fun isDir =>
        Keeps.bind (onRoot_upper ?_) fun _ => Keeps.bind (rebind_keeps _ _) fun _ => Keeps.pure _
  exact Keeps.ite (VfsPath.moveDir_lower frames) VfsPath.moveFile_lower

theorem symlink_keeps [UpperFree g] [TablesFree g] (parent : Ino) (name : Name) (link : Target) :
    Keeps g (symlink parent name link) :=
  Keeps.bind pathOf_keeps fun _ => Keeps.bind (join_keeps _ _) fun _ =>
    Keeps.bind dropWhiteout_keeps fun _ => Keeps.bind (onUpperDir_keeps _) fun _ =>
      Keeps.bind (onUpperDir_keeps _) fun _ => Keeps.bind internPath_keeps fun _ =>
        Keeps.bind (attrNow_keeps _) fun _ => Keeps.pure _

theorem release_keeps [UpperFree g] [OpenFree g] : Keeps g (release fh) := by
  refine Keeps.bind fileOf_keeps fun file => Keeps.bind removeFile_keeps fun _ => ?_
  cases file with
  | passthrough backing => exact Keeps.pure _
  | streaming reader => exact Keeps.pure _
  | buffered path data dirty writable =>
    exact Keeps.bind (doIf_keeps (writeBack_keeps data)) fun _ => Keeps.pure _

theorem fsync_keeps [UpperFree g] [OpenFree g] : Keeps g (fsync fh) := by
  refine Keeps.bind fileOf_keeps fun file => ?_
  cases file with
  | passthrough backing => exact Keeps.pure _
  | streaming reader => exact Keeps.pure _
  | buffered path data dirty writable =>
    exact Keeps.bind (doIf_keeps (Keeps.bind (writeBack_keeps data) fun _ =>
      insertFile_keeps _)) fun _ => Keeps.pure _

theorem create_keeps [UpperFree g] [TablesFree g] [FilesFree g] (parent : Ino) (name : Name)
    (flags : OpenFlags) : Keeps g (create parent name flags) :=
  Keeps.bind pathOf_keeps fun _ => Keeps.bind (join_keeps _ _) fun _ =>
    Keeps.bind (Keeps.ask _) fun _ => Keeps.bind (failIf_keeps _ _) fun _ =>
      Keeps.bind (createIn_keeps _) fun _ => Keeps.bind internPath_keeps fun _ =>
        Keeps.bind (attrNow_keeps _) fun _ => Keeps.bind allocFh_keeps fun _ =>
          Keeps.bind (insertFile_keeps _) fun _ => Keeps.pure _

/-! ### The open files, over every request -/

section Files

variable {I : (Fh → Option OpenFile) × Fh → Prop} {Own : Fh → Prop}

theorem openInode_stable (h : Stable I Own) (flags : OpenFlags) (backed : Bool) :
    Triple (fun s => I (files s)) (openInode ino flags backed : FuseM υ ℓ Reply)
      (fun _ s => I (files s)) (fun s => I (files s)) := by
  refine Triple.bind pathOf_keeps.triple fun path =>
    Triple.bind (allocFh_stable h) fun new => ?_
  -- up to the insertion the open files are as they were when the handle was given out
  have hkeep : ∀ {β : Type} {x : FuseM υ ℓ β}, Keeps files x → Triple
      (fun s => I (files s) ∧ ∀ file, I (Function.update s.openFiles new (some file), s.nextFh)) x
      (fun _ s => I (files s) ∧ ∀ file, I (Function.update s.openFiles new (some file), s.nextFh))
      (fun s => I (files s)) := fun hx =>
    (hx.triple (I := fun t => I t ∧ ∀ file, I (Function.update t.1 new (some file), t.2))).weaken
      (fun _ h => h) (fun _ _ h => h) fun _ h => h.1
  have hinsert : ∀ file reply, Triple
      (fun s => I (files s) ∧ ∀ file, I (Function.update s.openFiles new (some file), s.nextFh))
      (do
        insertFile new file
        return reply : FuseM υ ℓ Reply) (fun _ s => I (files s)) (fun s => I (files s)) :=
    fun file reply => Triple.bind (insertFile_stable.weaken (fun _ h => h.2 file)
      (fun _ _ h => h) fun _ h => h) fun _ => Triple.pure _ fun _ h => h
  refine Triple.ite (fun _ => ?_) fun _ => ?_
  · exact Triple.bind (hkeep (failIf_keeps _ _)) fun _ =>
      Triple.bind (hkeep (Keeps.ask _)) fun _ => hinsert _ _
  · refine Triple.bind (hkeep (openBacking_keeps backed)) fun backing => ?_
    cases backing with
    | some backing => exact hinsert _ _
    | none =>
      exact Triple.bind (hkeep (failIf_keeps _ _)) fun _ =>
        Triple.bind (hkeep (onRoot_keeps _)) fun _ => hinsert _ _

theorem create_stable (h : Stable I Own) (parent : Ino) (name : Name) (flags : OpenFlags) :
    Triple (fun s => I (files s)) (create parent name flags : FuseM υ ℓ Reply)
      (fun _ s => I (files s)) (fun s => I (files s)) := by
  refine Triple.bind pathOf_keeps.triple fun d =>
    Triple.bind (join_keeps _ _).triple fun path =>
      Triple.bind (Keeps.ask _).triple fun there =>
        Triple.bind (failIf_keeps _ _).triple fun _ =>
          Triple.bind (createIn_keeps _).triple fun _ =>
            Triple.bind internPath_keeps.triple fun ino =>
              Triple.bind (attrNow_keeps _).triple fun attr =>
                Triple.bind (allocFh_stable h) fun new => ?_
  exact Triple.bind (insertFile_stable.weaken (fun _ h => h.2 _) (fun _ _ h => h)
    fun _ h => h) fun _ => Triple.pure _ fun _ h => h

theorem release_stable (h : Stable I Own) (hown : Own fh) :
    Triple (fun s => I (files s)) (release fh : FuseM υ ℓ Reply)
      (fun _ s => I (files s)) (fun s => I (files s)) := by
  have hremove : Triple (fun s => I (files s) ∧ (s.openFiles fh).isSome)
      (removeFile fh : FuseM υ ℓ Unit) (fun _ s => I (files s)) (fun s => I (files s)) :=
    Triple.modify fun _ hs => h.own _ _ _ _ hown hs.2 hs.1
  refine Triple.bind fileOf_stable fun f => Triple.bind hremove fun _ => ?_
  cases f with
  | passthrough backing => exact Triple.pure _ fun _ h => h
  | streaming reader => exact Triple.pure _ fun _ h => h
  | buffered path data dirty writable =>
    exact (Keeps.bind (doIf_keeps (writeBack_keeps data)) fun _ => Keeps.pure _).triple

theorem fsync_stable (h : Stable I Own) (hown : Own fh) :
    Triple (fun s => I (files s)) (fsync fh : FuseM υ ℓ Reply)
      (fun _ s => I (files s)) (fun s => I (files s)) := by
  refine Triple.bind fileOf_stable fun f => ?_
  cases f with
  | passthrough backing => exact Triple.pure _ fun _ h => h.1
  | streaming reader => exact Triple.pure _ fun _ h => h.1
  | buffered path data dirty writable =>
    refine Triple.bind (R := fun _ s => I (files s)) (Triple.ite (fun _ => ?_)
      fun _ => Triple.pure _ fun _ h => h.1) fun _ => Triple.pure _ fun _ h => h
    exact Triple.bind ((open_triple (writeBack_keeps data)).weaken (fun _ h => h)
      (fun _ _ h => h) fun _ h => h.1) fun _ => updateFile_stable h hown _

/-- A request on the handle. -/
def OnHandle (fh : Fh) : Request → Prop
  | .write fh' _ _ | .release fh' | .fsync fh' => fh' = fh
  | _ => False

/-- What survives opening a file and changes to the files a request works on survives
the request. -/
theorem step_stable {r : Request} (h : Stable I Own) (hr : ∀ fh, OnHandle fh r → Own fh)
    (hs : I (files s)) : I (files (next s r)) := by
  suffices hstep : Triple (fun s => I (files s)) (step r : FuseM υ ℓ Reply)
      (fun _ s => I (files s)) (fun s => I (files s)) from hstep.finalState hs
  cases r with
  | lookup parent name => exact (lookup_keeps _ _).triple
  | getattr ino => exact getattr_keeps.triple
  | setattr ino attrs => exact (setattr_keeps _).triple
  | readdir ino offset capacity => exact (readdir_keeps _ _).triple
  | mkdir parent name => exact (mkdir_keeps _ _).triple
  | rmdir parent name => exact (rmdir_keeps _ _).triple
  | openInode ino flags backed => exact openInode_stable h _ _
  | read fh offset size => exact (read_keeps _ _).triple
  | write fh offset data => exact write_stable h (hr fh rfl) _ _
  | release fh => exact release_stable h (hr fh rfl)
  | create parent name flags => exact create_stable h _ _ _
  | unlink parent name => exact (unlink_keeps _ _).triple
  | rename parent name newparent newname => exact (rename_keeps _ _ _ _).triple
  | readlink ino => exact readlink_keeps.triple
  | symlink parent name link => exact (symlink_keeps _ _ _).triple
  | setxattr ino applied => exact (changeXattr_keeps _).triple
  | removexattr ino applied => exact (changeXattr_keeps _).triple
  | fsync fh => exact fsync_stable h (hr fh rfl)
  | flush => exact (Keeps.pure _).triple

end Files

/-! ### The lower layers -/

/-- No request changes a lower layer. -/
theorem step_lowers (r : Request) : Keeps lowers (step r : FuseM υ ℓ Reply) := by
  cases r with
  | lookup parent name => exact lookup_keeps _ _
  | getattr ino => exact getattr_keeps
  | setattr ino attrs => exact setattr_keeps _
  | readdir ino offset capacity => exact readdir_keeps _ _
  | mkdir parent name => exact mkdir_keeps _ _
  | rmdir parent name => exact rmdir_keeps _ _
  | openInode ino flags backed => exact openInode_keeps _ _
  | read fh offset size => exact read_keeps _ _
  | write fh offset data => exact write_keeps _ _
  | release fh => exact release_keeps
  | create parent name flags => exact create_keeps _ _ _
  | unlink parent name => exact unlink_keeps _ _
  | rename parent name newparent newname => exact rename_keeps _ _ _ _
  | readlink ino => exact readlink_keeps
  | symlink parent name link => exact symlink_keeps _ _ _
  | setxattr ino applied | removexattr ino applied => exact changeXattr_keeps _
  | fsync fh => exact fsync_keeps
  | flush => exact Keeps.pure _

/-! ### Handles -/

/-- The handle was given out, and has this file or none. -/
def Has (fh : Fh) (file : Option OpenFile) (s : Fuse υ ℓ) : Prop :=
  s.openFiles fh = file ∧ fh < s.nextFh

/-- A handle's file changes only by requests on that handle. -/
theorem openFiles_frame {r : Request} (h : Has fh file s) (hr : ¬ OnHandle fh r) :
    Has fh file (next s r) := by
  have hstable : Stable (fun t => t.1 fh = file ∧ fh < t.2) (· ≠ fh) :=
    { alloc := fun _ _ h => ⟨h.1, Nat.lt_succ_of_lt h.2⟩
      opened := fun t n _ h =>
        ⟨(Function.update_of_ne (Nat.ne_of_lt h.2) _ t).trans h.1, Nat.lt_succ_of_lt h.2⟩
      own := fun t _ _ _ hne _ h => ⟨(Function.update_of_ne hne.symm _ t).trans h.1, h.2⟩ }
  refine step_stable hstable ?_ h
  rintro fh' hr' rfl
  exact hr hr'

/-- Every open file has a handle that was given out. -/
def Issued (s : Fuse υ ℓ) : Prop := ∀ fh, (s.openFiles fh).isSome → fh < s.nextFh

theorem Issued.step (h : Issued s) (r : Request) : Issued (next s r) := by
  have hstable : Stable (fun t => ∀ fh, (t.1 fh).isSome → fh < t.2) (fun _ => True) := by
    refine ⟨fun _ _ h fh hfh => Nat.lt_succ_of_lt (h fh hfh), ?_, ?_⟩
    · intro t n file h fh hfh
      by_cases hn : fh = n
      · exact hn ▸ Nat.lt_succ_self n
      · dsimp only at hfh
        rw [Function.update_of_ne hn] at hfh
        exact Nat.lt_succ_of_lt (h fh hfh)
    · intro t n fh' file _ hopen h fh hfh
      by_cases hn : fh = fh'
      · exact h fh (hn ▸ hopen)
      · dsimp only at hfh
        rw [Function.update_of_ne hn] at hfh
        exact h fh hfh
  exact step_stable hstable (fun _ _ => True.intro) h

/-- In every state a daemon reaches. -/
theorem issued_run (root : LayerFS υ ℓ) (verifiedLayers : List Bool) (frames : Nat)
    (rs : List Request) : Issued (run (new root verifiedLayers frames) rs) := by
  have hall : EachStep next (fun _ _ => True) (new root verifiedLayers frames) rs :=
    EachStep.trivial fun _ _ => True.intro
  refine hall.invariant (fun _ r h _ => h.step r) fun fh hfh => ?_
  cases hfh

end Handlers

end Fuse

end Rspacefs
