import Rspacefs.Core.Listing
import Rspacefs.Vfs.Local

/-!
# What a method of `LayerFS` may touch

A method that names `p` calls the upper directory at `p`, above `p` and at the
whiteout marker of `p`, and nowhere else; the recursive methods do so for the paths
below theirs too. So a condition on the upper directory that survives the calls at
these paths survives the method, whether it returns or fails. The layers are any
directories, and the lower ones are never changed.

## Main definitions

* `KeptNear`, `KeptFile` — a condition survives the calls at `p`, above it and at its marker
* `Stacked` — a condition on the upper layer, with the lower layers given

## Main results

* `createFile_stacked`, `createDir_stacked`, `removeWith_stacked`, `moveFile_stacked`,
  `moveDir_stacked` — one rule per method
* `createFile_lower`, … — the lower layers are never changed, whatever the paths
-/

namespace Rspacefs

open Lib LayerFS

variable {υ ℓ : Type} {J : υ → Prop} {p q : Path} {lower : List ℓ}

/-- A condition survives the calls at `p`, above it and at its marker. -/
structure KeptNear [PhysicalFS υ] (J : υ → Prop) (p : Path) : Prop where
  marker : KeptAt J (whiteoutPath p)
  upTo : ∀ q, q <+: p → KeptName J q

/-- A condition survives, besides, the calls that write a file at `p`. -/
structure KeptFile [PhysicalFS υ] (J : υ → Prop) (p : Path) : Prop extends KeptNear J p where
  file : KeptAt J p

/-- The upper layer satisfies `J` and the lower layers are the given ones. -/
def Stacked (J : υ → Prop) (lower : List ℓ) (fs : LayerFS υ ℓ) : Prop :=
  J fs.upper ∧ fs.lower = lower

/-! ### Steps on the upper layer -/

theorem onUpper_stacked {α : Type} {x : VfsM υ α} {Q : α → υ → Prop} {E : υ → Prop}
    (h : Triple J x Q E) :
    Triple (Stacked J lower) (onUpper x) (fun a => Stacked (Q a) lower) (Stacked E lower) := by
  refine Triple.of_forall fun fs ⟨hJ, hlower⟩ => Triple.onPart fs ?_
  exact h.weaken (by rintro _ rfl; exact hJ) (fun _ _ hQ => ⟨hQ, hlower⟩) fun _ hE => ⟨hE, hlower⟩

/-- A call on the upper layer that matters only when it returns. -/
theorem onUpper_returns {α : Type} {x : VfsM υ α} {Q : α → υ → Prop}
    (h : Triple J x Q (fun _ => True)) :
    Triple (Stacked J lower) (onUpper x) (fun a => Stacked (Q a) lower) (fun _ => True) :=
  (onUpper_stacked h).weaken (fun _ h => h) (fun _ _ h => h) fun _ _ => trivial

/-- Two calls on the upper layer are one. -/
theorem onUpper_bind {α β : Type} (x : VfsM υ α) (f : α → VfsM υ β) :
    (onUpper (x >>= f) : VfsM (LayerFS υ ℓ) β) = onUpper x >>= fun a => onUpper (f a) := by
  funext fs
  change (onUpper (x >>= f)).run fs = (onUpper x >>= fun a => onUpper (f a)).run fs
  rw [EStateM.run_bind, onUpper, run_onPart, EStateM.run_bind, onUpper, run_onPart]
  cases x.run fs.upper <;> rfl

theorem ask_stacked {α : Type} {g : LayerFS υ ℓ → VfsResult α} :
    Triple (Stacked J lower) (ask g) (fun _ => Stacked J lower) (Stacked J lower) :=
  Triple.ask (fun _ _ h _ => h) fun _ h => h

/-- The loop over a listing: its body need only keep the condition for names that are
no markers. -/
theorem forEntries_stacked {entries : List Name} {g : Name → VfsM (LayerFS υ ℓ) Unit}
    (h : ∀ n, ¬ IsMarker n →
      Triple (Stacked J lower) (g n) (fun _ => Stacked J lower) (Stacked J lower)) :
    Triple (fun fs => (∀ n ∈ entries, ¬ IsMarker n) ∧ Stacked J lower fs) (entries.forM g)
      (fun _ => Stacked J lower) (Stacked J lower) := by
  refine Triple.of_forall fun fs ⟨hplain, hfs⟩ => ?_
  exact (Triple.forM fun n hn => h n (hplain n hn)).weaken (by rintro _ rfl; exact hfs)
    (fun _ _ h => h) fun _ h => h

variable [PhysicalFS υ]

theorem whenExists_keeps {x : VfsM υ Unit} (h : Triple J x (fun _ => J) J) :
    Triple J (whenExists p x) (fun _ => J) J :=
  Triple.bind (R := fun _ => J) (Triple.ask (fun _ _ h _ => h) fun _ h => h) fun _ =>
    Triple.ite (fun _ => h) fun _ => Triple.pure () fun _ h => h

theorem unlessExists_keeps {x : VfsM υ Unit} (h : Triple J x (fun _ => J) J) :
    Triple J (unlessExists p x) (fun _ => J) J :=
  Triple.bind (R := fun _ => J) (Triple.ask (fun _ _ h _ => h) fun _ h => h) fun _ =>
    Triple.ite (fun _ => Triple.pure () fun _ h => h) fun _ => h

theorem KeptName.vfsCreateDir (h : KeptName J p) :
    Triple J (VfsPath.createDir p) (fun _ => J) J :=
  Triple.bind (R := fun _ => J) (Triple.ask (fun _ _ h _ => h) fun _ h => h) fun _ => h.createDir

theorem KeptAt.vfsCreateFile (h : KeptAt J p) :
    Triple J (VfsPath.createFile p)
      (fun w u => w = ⟨p, 0⟩ ∧ (symlinkMetadata u p).isSome ∧ J u) J :=
  Triple.bind (R := fun _ => J) (Triple.ask (fun _ _ h _ => h) fun _ h => h) fun _ => h.createFile

theorem ensureDirs_near (current : Path) (parts : List Name)
    (h : ∀ q, q <+: current ++ parts → KeptName J q) :
    Triple J (ensureDirs current parts) (fun _ => J) J := by
  induction parts generalizing current with
  | nil => exact Triple.pure () fun _ h => h
  | cons part rest ih =>
    have hstep : KeptName J (current ++ [part]) := h _ ⟨rest, by simp⟩
    refine Triple.bind (unlessExists_keeps hstep.vfsCreateDir) fun _ => ih _ fun q hq => h q ?_
    simpa using hq

/-! ### Methods that name one path -/

theorem ensureUpperParents_stacked (h : ∀ q, q <+: p.dropLast → KeptName J q) :
    Triple (Stacked J lower) (ensureUpperParents p) (fun _ => Stacked J lower)
      (Stacked J lower) :=
  onUpper_stacked (ensureDirs_near [] p.dropLast (by simpa using h))

theorem KeptNear.above (h : KeptNear J p) (q : Path) (hq : q <+: p.dropLast) : KeptName J q :=
  h.upTo q (hq.trans (List.dropLast_prefix p))

theorem KeptNear.self (h : KeptNear J p) : KeptName J p := h.upTo p (List.prefix_refl p)

theorem removeWhiteout_stacked (h : KeptName J (whiteoutPath p)) :
    Triple (Stacked J lower) (removeWhiteout p) (fun _ => Stacked J lower) (Stacked J lower) :=
  onUpper_stacked (whenExists_keeps h.removeFile)

theorem createWhiteout_stacked (h : KeptNear J p) :
    Triple (Stacked J lower) (createWhiteout p) (fun _ => Stacked J lower) (Stacked J lower) := by
  refine Triple.bind (ensureUpperParents_stacked fun q hq => ?_) fun _ => onUpper_stacked
    (unlessExists_keeps (Triple.bind h.marker.vfsCreateFile fun _ => Triple.pure () fun _ h => h.2.2))
  rw [whiteoutPath_dropLast] at hq
  exact h.above q hq

theorem createDir_stacked (h : KeptNear J p) :
    Triple (Stacked J lower) (LayerFS.createDir p) (fun _ => Stacked J lower)
      (Stacked J lower) :=
  Triple.bind (ensureUpperParents_stacked h.above) fun _ =>
    Triple.bind (removeWhiteout_stacked h.marker.toKeptName) fun _ =>
      onUpper_stacked h.self.vfsCreateDir

theorem createFile_stacked (h : KeptFile J p) :
    Triple (Stacked J lower) (LayerFS.createFile p)
      (fun w => Stacked (fun u => w = ⟨p, 0⟩ ∧ (symlinkMetadata u p).isSome ∧ J u) lower)
      (Stacked J lower) :=
  Triple.bind (ensureUpperParents_stacked h.above) fun _ =>
    Triple.bind (removeWhiteout_stacked h.marker.toKeptName) fun _ =>
      onUpper_stacked h.file.vfsCreateFile

/-- Writing through what `create_file` returned. -/
theorem writeAll_stacked (h : KeptAt J p) (w : Writer) (bytes : Bytes) :
    Triple (Stacked (fun u => w = ⟨p, 0⟩ ∧ (symlinkMetadata u p).isSome ∧ J u) lower)
      (onUpper (FileSystem.writeAll w bytes)) (fun _ => Stacked J lower) (Stacked J lower) := by
  refine onUpper_stacked (Triple.of_forall fun u ⟨hw, _, hu⟩ => ?_)
  subst hw
  exact (h.writeAll 0 bytes).weaken (by rintro _ rfl; exact hu) (fun _ _ h => h) fun _ h => h

section Lower

variable [FileSystem ℓ]

theorem removeWith_stacked {removeUpper : Path → VfsM υ Unit} (h : KeptNear J p)
    (hremove : Triple J (removeUpper p) (fun _ => J) J) :
    Triple (Stacked J lower) (removeWith removeUpper p) (fun _ => Stacked J lower)
      (Stacked J lower) :=
  Triple.bind (onUpper_stacked (whenExists_keeps hremove)) fun _ =>
    Triple.bind ask_stacked fun _ =>
      Triple.ite (fun _ => createWhiteout_stacked h) fun _ => Triple.pure () fun _ h => h

theorem removeFile_stacked (h : KeptNear J p) :
    Triple (Stacked J lower) (LayerFS.removeFile p) (fun _ => Stacked J lower)
      (Stacked J lower) :=
  removeWith_stacked h h.self.removeFile

theorem removeDir_stacked (h : KeptNear J p) :
    Triple (Stacked J lower) (LayerFS.removeDir p) (fun _ => Stacked J lower)
      (Stacked J lower) :=
  removeWith_stacked h h.self.removeDir

theorem copyFile_stacked (src : Path) (h : KeptFile J p) :
    Triple (Stacked J lower) (LayerFS.copyFile src p) (fun _ => Stacked J lower)
      (Stacked J lower) :=
  Triple.bind ask_stacked fun _ => Triple.bind ask_stacked fun _ => Triple.bind ask_stacked fun _ =>
    Triple.bind (ensureUpperParents_stacked h.above) fun _ =>
      Triple.bind (removeWhiteout_stacked h.marker.toKeptName) fun _ =>
        Triple.bind (onUpper_stacked h.file.vfsCreateFile) fun _ => writeAll_stacked h.file _ _

theorem moveFile_stacked (hp : KeptNear J p) (hq : KeptFile J q) :
    Triple (Stacked J lower) (LayerFS.moveFile p q) (fun _ => Stacked J lower)
      (Stacked J lower) :=
  Triple.bind (copyFile_stacked p hq) fun _ => removeFile_stacked hp

/-! ### Whole directories -/

/-- A condition survives the methods that name `p` or a path below it. -/
def KeptBelow (J : υ → Prop) (p : Path) : Prop := ∀ r, NoMarker r → KeptFile J (p ++ r)

theorem KeptBelow.self (h : KeptBelow J p) : KeptFile J p := by
  simpa using h [] (by simp [NoMarker])

theorem KeptBelow.child {n : Name} (h : KeptBelow J p) (hn : ¬ IsMarker n) :
    KeptBelow J (p ++ [n]) := by
  intro r hr
  simpa using h (n :: r) (hr.cons hn)

theorem readDir_stacked {src : Path} :
    Triple (Stacked J lower) (ask fun fs : LayerFS υ ℓ => LayerFS.readDir src fs)
      (fun entries fs => (∀ n ∈ entries, ¬ IsMarker n) ∧ Stacked J lower fs) (Stacked J lower) :=
  Triple.ask (fun _ _ hfs hl => ⟨fun _ hn => not_isMarker_of_mem_readDir hl hn, hfs⟩)
    fun _ hfs => hfs

theorem copyDirRecursive_stacked (frames : Nat) (src : Path) (h : KeptBelow J p) :
    Triple (Stacked J lower) (copyDirRecursive frames src p) (fun _ => Stacked J lower)
      (Stacked J lower) := by
  induction frames generalizing src p with
  | zero => exact Triple.throw _ fun _ h => h
  | succ frames ih =>
    rw [copyDirRecursive]
    refine Triple.bind (ensureUpperParents_stacked h.self.above) fun _ => ?_
    refine Triple.bind (removeWhiteout_stacked h.self.marker.toKeptName) fun _ => ?_
    refine Triple.bind (onUpper_stacked (unlessExists_keeps h.self.self.vfsCreateDir)) fun _ => ?_
    refine Triple.bind readDir_stacked fun entries => forEntries_stacked fun n hn =>
      Triple.bind ask_stacked fun resolved => ?_
    cases resolved with
    | none => exact Triple.pure () fun _ h => h
    | some source =>
      exact Triple.bind ask_stacked fun md => Triple.ite (fun _ => ih _ (h.child hn))
        fun _ => copyFile_stacked _ (h.child hn).self

theorem removeDirRecursive_stacked (frames : Nat) (h : KeptBelow J p)
    (hmarkers : ∀ r m, NoMarker r → IsMarker m → KeptName J (p ++ r ++ [m])) :
    Triple (Stacked J lower) (removeDirRecursive frames p) (fun _ => Stacked J lower)
      (Stacked J lower) := by
  induction frames generalizing p with
  | zero => exact Triple.throw _ fun _ h => h
  | succ frames ih =>
    rw [removeDirRecursive]
    refine Triple.bind readDir_stacked fun entries =>
      Triple.bind (forEntries_stacked fun n hn => ?_) fun _ =>
        Triple.bind (onUpper_stacked (whenExists_keeps ?_)) fun _ => removeDir_stacked h.self.toKeptNear
    · refine Triple.bind ask_stacked fun resolved => ?_
      cases resolved with
      | none => exact Triple.pure () fun _ h => h
      | some source =>
        refine Triple.bind ask_stacked fun md => Triple.ite (fun _ => ih (h.child hn) ?_)
          fun _ => removeFile_stacked (h.child hn).self.toKeptNear
        intro r m hr hm
        simpa using hmarkers (n :: r) m (hr.cons hn) hm
    · -- the markers left in the directory
      refine Triple.bind (R := fun _ => J) (Triple.ask (fun _ _ h _ => h) fun _ h => h)
        fun names => ?_
      refine Triple.forM fun m _ => Triple.ite (fun hm => ?_) fun _ => Triple.pure () fun _ h => h
      exact (by simpa using hmarkers [] m (by simp [NoMarker]) hm : KeptName J (p ++ [m])).removeFile

theorem moveDir_stacked (frames : Nat) (hp : KeptBelow J p) (hq : KeptBelow J q)
    (hmarkers : ∀ r m, NoMarker r → IsMarker m → KeptName J (p ++ r ++ [m])) :
    Triple (Stacked J lower) (LayerFS.moveDir frames p q) (fun _ => Stacked J lower)
      (Stacked J lower) :=
  Triple.bind (copyDirRecursive_stacked frames p hq) fun _ =>
    removeDirRecursive_stacked frames hp hmarkers

end Lower

/-! ### The lower layers -/

namespace LayerFS

variable {υ ℓ α : Type} {p q : Path}

/-- What a call on the upper layer leaves alone. -/
theorem onUpper_lower (x : VfsM υ α) :
    Keeps LayerFS.lower (onUpper x : VfsM (LayerFS υ ℓ) α) := by
  refine fun b => Triple.of_forall fun fs hfs => Triple.onPart fs ?_
  intro u _
  cases x.run u <;> exact hfs

theorem forM_lower {β : Type} {l : List β} {g : β → VfsM (LayerFS υ ℓ) PUnit}
    (h : ∀ a, Keeps LayerFS.lower (g a)) : Keeps LayerFS.lower (l.forM g) :=
  fun b => Triple.forM fun a _ => h a b

variable [FileSystem υ]

theorem ensureUpperParents_lower :
    Keeps LayerFS.lower (ensureUpperParents p : VfsM (LayerFS υ ℓ) Unit) :=
  onUpper_lower _

theorem removeWhiteout_lower :
    Keeps LayerFS.lower (removeWhiteout p : VfsM (LayerFS υ ℓ) Unit) :=
  onUpper_lower _

theorem createDir_lower : Keeps LayerFS.lower (LayerFS.createDir p : VfsM (LayerFS υ ℓ) Unit) :=
  Keeps.bind ensureUpperParents_lower fun _ => Keeps.bind removeWhiteout_lower fun _ =>
    onUpper_lower _

theorem createFile_lower :
    Keeps LayerFS.lower (LayerFS.createFile p : VfsM (LayerFS υ ℓ) Writer) :=
  Keeps.bind ensureUpperParents_lower fun _ => Keeps.bind removeWhiteout_lower fun _ =>
    onUpper_lower _

variable [FileSystem ℓ]

theorem removeWith_lower (removeUpper : Path → VfsM υ Unit) :
    Keeps LayerFS.lower (removeWith removeUpper p : VfsM (LayerFS υ ℓ) Unit) :=
  Keeps.bind (onUpper_lower _) fun _ => Keeps.bind (Keeps.ask _) fun _ =>
    Keeps.ite (Keeps.bind ensureUpperParents_lower fun _ => onUpper_lower _) (Keeps.pure _)

theorem copyFile_lower : Keeps LayerFS.lower (LayerFS.copyFile p q : VfsM (LayerFS υ ℓ) Unit) :=
  Keeps.bind (Keeps.ask _) fun _ => Keeps.bind (Keeps.ask _) fun _ =>
    Keeps.bind (Keeps.ask _) fun _ => Keeps.bind ensureUpperParents_lower fun _ =>
      Keeps.bind removeWhiteout_lower fun _ => Keeps.bind (onUpper_lower _) fun _ =>
        onUpper_lower _

theorem copyDirRecursive_lower (frames : Nat) (p q : Path) :
    Keeps LayerFS.lower (copyDirRecursive frames p q : VfsM (LayerFS υ ℓ) Unit) := by
  induction frames generalizing p q with
  | zero => exact Keeps.throw _
  | succ frames ih =>
    refine Keeps.bind ensureUpperParents_lower fun _ => Keeps.bind removeWhiteout_lower fun _ =>
      Keeps.bind (onUpper_lower _) fun _ => Keeps.bind (Keeps.ask _) fun entries =>
        forM_lower fun name => Keeps.bind (Keeps.ask _) fun resolved => ?_
    cases resolved with
    | none => exact Keeps.pure _
    | some source =>
      exact Keeps.bind (Keeps.ask _) fun md => Keeps.ite (ih _ _) copyFile_lower

theorem removeDirRecursive_lower (frames : Nat) (p : Path) :
    Keeps LayerFS.lower (removeDirRecursive frames p : VfsM (LayerFS υ ℓ) Unit) := by
  induction frames generalizing p with
  | zero => exact Keeps.throw _
  | succ frames ih =>
    refine Keeps.bind (Keeps.ask _) fun entries => Keeps.bind (forM_lower fun name => ?_)
      fun _ => Keeps.bind (onUpper_lower _) fun _ => removeWith_lower _
    refine Keeps.bind (Keeps.ask _) fun resolved => ?_
    cases resolved with
    | none => exact Keeps.pure _
    | some source =>
      exact Keeps.bind (Keeps.ask _) fun md => Keeps.ite (ih _) (removeWith_lower _)

end LayerFS

namespace VfsPath

variable {υ ℓ : Type} {p q : Path} [FileSystem υ] [FileSystem ℓ]

theorem createDir_lower :
    Keeps LayerFS.lower (VfsPath.createDir p : VfsM (LayerFS υ ℓ) Unit) :=
  Keeps.bind (Keeps.ask _) fun _ => LayerFS.createDir_lower

theorem createFile_lower :
    Keeps LayerFS.lower (VfsPath.createFile p : VfsM (LayerFS υ ℓ) Writer) :=
  Keeps.bind (Keeps.ask _) fun _ => LayerFS.createFile_lower

theorem moveFile_lower :
    Keeps LayerFS.lower (VfsPath.moveFile p q : VfsM (LayerFS υ ℓ) Unit) :=
  Keeps.bind (Keeps.ask _) fun _ => Keeps.ite (Keeps.throw _)
    (Keeps.bind copyFile_lower fun _ => removeWith_lower _)

theorem moveDir_lower (frames : Nat) :
    Keeps LayerFS.lower (VfsPath.moveDir frames p q : VfsM (LayerFS υ ℓ) Unit) :=
  Keeps.bind (Keeps.ask _) fun _ => Keeps.ite (Keeps.throw _)
    (Keeps.bind (copyDirRecursive_lower _ _ _) fun _ => removeDirRecursive_lower _ _)

end VfsPath

end Rspacefs
