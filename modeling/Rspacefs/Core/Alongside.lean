import Mathlib.Data.List.Forall2
import Mathlib.Data.Option.Basic
import Rspacefs.Core.Layer
import Rspacefs.Lib.Mirrors

/-!
# Lower layers of another kind

What an overlay asks of its lower layers is whether a path is there, what it is, what is in it
and what reading it to the end gives. Over lower layers that answer these questions alike, two
overlays with the same upper layer do the same, whatever their lower layers are.

## Main definitions

* `Alongside` — two layers answer alike
* `Abreast` — two overlays with the same upper layer and lower layers that answer alike
* `Parallel` — two programs do the same on such overlays

## Main results

* `Abreast.resolve`, `Abreast.existsAt`, `Abreast.content`, … — lookups and listings
* `parallel_createFile`, `parallel_removeDir`, `parallel_moveDir`, … — changes
-/

namespace Rspacefs

open Lib LayerFS

variable {υ ℓ ℓ' : Type} [FileSystem ℓ] [FileSystem ℓ']

/-- Two layers that answer alike. How an opened file fails to be read may differ. -/
structure Alongside (l : ℓ) (l' : ℓ') : Prop where
  existsAt : ∀ p, existsAt l p = existsAt l' p
  metadata : ∀ p, metadata l p = metadata l' p
  readDir : ∀ p, readDir l p = readDir l' p
  content : ∀ p, Alike Eq (contentAt l p) (contentAt l' p)

/-- A relation between lower layers that answer alike, and may have more in common. -/
structure Pairing (ℓ ℓ' : Type) [FileSystem ℓ] [FileSystem ℓ'] where
  rel : ℓ → ℓ' → Prop
  alongside : ∀ l l', rel l l' → Alongside l l'

variable (A : Pairing ℓ ℓ')

/-- A path is found at the same place. -/
inductive SameLayer : Resolved ℓ → Resolved ℓ' → Prop
  | upper : SameLayer .upper .upper
  | lower (i : Nat) {l : ℓ} {l' : ℓ'} (h : A.rel l l') : SameLayer (.lower i l) (.lower i l')

/-- Two overlays with one upper layer, over lower layers that are paired. -/
structure Abreast (fs : LayerFS υ ℓ) (fs' : LayerFS υ ℓ') : Prop where
  upper : fs.upper = fs'.upper
  lower : List.Forall₂ A.rel fs.lower fs'.lower

/-! ### Resolution -/

namespace Alongside

variable {l : ℓ} {l' : ℓ'} (h : Alongside l l')
include h

theorem collectWhiteouts (d : Path) :
    LayerFS.collectWhiteouts l d = LayerFS.collectWhiteouts l' d := by
  rw [LayerFS.collectWhiteouts, LayerFS.collectWhiteouts, h.existsAt, h.readDir]

theorem lowerOpaqueWalk (up : List Name) :
    LayerFS.lowerOpaqueWalk l up = LayerFS.lowerOpaqueWalk l' up := by
  induction up with
  | nil => rw [LayerFS.lowerOpaqueWalk, LayerFS.lowerOpaqueWalk, h.existsAt]
  | cons n up ih => rw [LayerFS.lowerOpaqueWalk, LayerFS.lowerOpaqueWalk, h.existsAt, ih]

end Alongside

variable {A}

theorem alike_resolveLower {ls : List ℓ} {ls' : List ℓ'} (h : List.Forall₂ A.rel ls ls')
    (p : Path) (i : Nat) :
    Alike (Option.Rel (SameLayer A)) (resolveLower p i ls) (resolveLower p i ls') := by
  induction h generalizing i with
  | nil => exact .none
  | @cons l l' ls ls' hrel _ ih =>
    have hl := A.alongside l l' hrel
    unfold resolveLower lowerHasWhiteout lowerIsOpaqueAbove
    simp only [ok_bind, hl.collectWhiteouts, hl.existsAt, hl.lowerOpaqueWalk]
    split
    · exact .none
    · refine (Alike.of_eq (fun _ => rfl) rfl).bind ?_
      rintro there _ - - rfl
      cases there with
      | true => exact .some (.lower i hrel)
      | false =>
        simp only [Bool.false_eq_true, if_false]
        split
        · exact .none
        · exact ih (i + 1)

/-- The lower layers add the same names. -/
theorem alike_mergeLower {ls : List ℓ} {ls' : List ℓ'} (hls : List.Forall₂ A.rel ls ls')
    (d : Path) (acc : Listing) : Alike Eq (mergeLower d ls acc) (mergeLower d ls' acc) := by
  induction hls generalizing acc with
  | nil => rfl
  | @cons l l' ls ls' hrel _ ih =>
    have hl := A.alongside l l' hrel
    unfold mergeLower
    rw [hl.existsAt, hl.readDir]
    refine (Alike.of_eq (fun _ => rfl) rfl).bind ?_
    rintro there _ - - rfl
    cases there with
    | false => exact ih acc
    | true =>
      refine (Alike.of_eq (fun _ => rfl) rfl).bind ?_
      rintro names _ - - rfl
      exact ih _

namespace Abreast

variable [FileSystem υ] {fs : LayerFS υ ℓ} {fs' : LayerFS υ ℓ'} (h : Abreast A fs fs')
include h

theorem resolve (p : Path) :
    Alike (Option.Rel (SameLayer A)) (LayerFS.resolve p fs) (LayerFS.resolve p fs') := by
  unfold LayerFS.resolve
  rw [h.upper]
  refine (Alike.of_eq (fun _ => rfl) rfl).bind ?_
  rintro hidden _ - - rfl
  cases hidden with
  | true => exact .none
  | false =>
    refine (Alike.of_eq (fun _ => rfl) rfl).bind ?_
    rintro there _ - - rfl
    cases there with
    | true => exact .some .upper
    | false =>
      refine (Alike.of_eq (fun _ => rfl) rfl).bind ?_
      rintro isOpaque _ - - rfl
      cases isOpaque with
      | true => exact .none
      | false => exact alike_resolveLower h.lower p 0

/-- Where a path is found, if it is. -/
theorem found (p : Path) :
    Alike (SameLayer A) (LayerFS.resolve p fs >>= orNotFound) (LayerFS.resolve p fs' >>= orNotFound) := by
  refine (h.resolve p).bind ?_
  rintro _ _ - - (hr | _)
  · exact hr
  · exact True.intro

theorem existsAt (p : Path) : Alike Eq (LayerFS.existsAt p fs) (LayerFS.existsAt p fs') := by
  refine (h.resolve p).bind ?_
  rintro _ _ - - (_ | _) <;> rfl

theorem resolved_metadata {r : Resolved ℓ} {r' : Resolved ℓ'} (hr : SameLayer A r r') (p : Path) :
    r.metadata p fs = r'.metadata p fs' := by
  cases hr with
  | upper => rw [Resolved.metadata, Resolved.metadata, h.upper]
  | lower i hrel => exact (A.alongside _ _ hrel).metadata p

theorem resolved_content {r : Resolved ℓ} {r' : Resolved ℓ'} (hr : SameLayer A r r') (p : Path) :
    Alike Eq (r.openFile p fs >>= Reader.readToEnd) (r'.openFile p fs' >>= Reader.readToEnd) := by
  cases hr with
  | upper =>
    rw [Resolved.openFile, Resolved.openFile, h.upper]
    exact Alike.of_eq (fun _ => rfl) rfl
  | lower i hrel => exact (A.alongside _ _ hrel).content p

theorem metadata (p : Path) : Alike Eq (LayerFS.metadata p fs) (LayerFS.metadata p fs') := by
  unfold LayerFS.metadata
  rw [← bind_assoc, ← bind_assoc]
  exact (h.found p).bind fun r r' _ _ hr => Alike.of_eq (fun _ => rfl) (h.resolved_metadata hr p)

theorem content (p : Path) : Alike Eq (contentAt fs p) (contentAt fs' p) := by
  change Alike Eq (LayerFS.openFile p fs >>= Reader.readToEnd)
    (LayerFS.openFile p fs' >>= Reader.readToEnd)
  have hread : ∀ {κ : Type} [FileSystem κ] (fs : LayerFS υ κ), LayerFS.openFile p fs >>= Reader.readToEnd =
      LayerFS.resolve p fs >>= orNotFound >>= fun r => r.openFile p fs >>= Reader.readToEnd := by
    intro κ _ fs
    simp only [LayerFS.openFile, bind_assoc]
  rw [hread, hread]
  exact (h.found p).bind fun r r' _ _ hr => h.resolved_content hr p

theorem readDir (d : Path) : Alike Eq (LayerFS.readDir d fs) (LayerFS.readDir d fs') := by
  unfold LayerFS.readDir listUpper
  rw [h.upper]
  refine (Alike.of_eq (fun _ => rfl) rfl).bind ?_
  rintro isOpaque _ - - rfl
  refine (Alike.of_eq (fun _ => rfl) rfl).bind ?_
  rintro acc _ - - rfl
  cases isOpaque with
  | true => rfl
  | false =>
    refine (alike_mergeLower h.lower d acc).bind ?_
    rintro all _ - - rfl
    rfl

omit [FileSystem υ] in
theorem existsInLower (p : Path) : LayerFS.existsInLower p fs = LayerFS.existsInLower p fs' := by
  unfold LayerFS.existsInLower
  have hany : ∀ {ls : List ℓ} {ls' : List ℓ'}, List.Forall₂ A.rel ls ls' →
      (ls.any fun l => unwrapOr false (FileSystem.existsAt l p)) =
        ls'.any fun l => unwrapOr false (FileSystem.existsAt l p) := by
    intro ls ls' hls
    induction hls with
    | nil => rfl
    | cons hrel _ ih =>
      rw [List.any_cons, List.any_cons, (A.alongside _ _ hrel).existsAt, ih]
  exact hany h.lower

end Abreast

/-! ### Programs -/

variable (A) in
/-- The two programs do the same on overlays that answer alike. -/
def Parallel {α : Type} (x : VfsM (LayerFS υ ℓ) α) (y : VfsM (LayerFS υ ℓ') α) : Prop :=
  ∀ fs fs', Abreast A fs fs' → Mirrors (Abreast A) (fun _ _ => True) Eq x y fs fs'

namespace Parallel

variable {α β : Type} {x : VfsM (LayerFS υ ℓ) α} {y : VfsM (LayerFS υ ℓ') α}

theorem pure (a : α) : Parallel A (Pure.pure a : VfsM (LayerFS υ ℓ) α) (Pure.pure a : VfsM (LayerFS υ ℓ') α) :=
  fun _ _ h => Mirrors.pure rfl h

theorem throw (e : VfsError) :
    Parallel A (MonadExcept.throw e : VfsM (LayerFS υ ℓ) α) (MonadExcept.throw e : VfsM (LayerFS υ ℓ') α) :=
  fun _ _ h => Mirrors.throw True.intro h

theorem bind {k : α → VfsM (LayerFS υ ℓ) β} {l : α → VfsM (LayerFS υ ℓ') β} (hx : Parallel A x y)
    (hk : ∀ a, Parallel A (k a) (l a)) : Parallel A (x >>= k) (y >>= l) := by
  intro fs fs' h
  refine (hx fs fs' h).bind ?_
  rintro a _ s t - - rfl hst
  exact hk a s t hst

theorem ask {g : LayerFS υ ℓ → VfsResult α} {g' : LayerFS υ ℓ' → VfsResult α}
    (hg : ∀ fs fs', Abreast A fs fs' → Alike Eq (g fs) (g' fs')) :
    Parallel A (Lib.ask g) (Lib.ask g') :=
  fun fs fs' h => Mirrors.ask (hg fs fs' h) (fun _ _ _ _ => True.intro) h

theorem onUpper (x : VfsM υ α) :
    Parallel A (LayerFS.onUpper x : VfsM (LayerFS υ ℓ) α)
      (LayerFS.onUpper x : VfsM (LayerFS υ ℓ') α) := by
  intro fs fs' h
  have hsame : Mirrors Eq (fun _ _ => True) Eq x x fs.upper fs'.upper := by
    rw [h.upper]
    exact (Mirrors.same x _).mono (fun _ _ _ => True.intro) fun _ _ hab => hab
  exact hsame.onPart fun u v huv => ⟨huv, h.lower⟩

theorem ite {c : Prop} [Decidable c] {x' : VfsM (LayerFS υ ℓ) α} {y' : VfsM (LayerFS υ ℓ') α}
    (h : Parallel A x y) (h' : Parallel A x' y') :
    Parallel A (if c then x else x') (if c then y else y') := by
  split
  · exact h
  · exact h'

theorem forM {as : List β} {f : β → VfsM (LayerFS υ ℓ) PUnit} {g : β → VfsM (LayerFS υ ℓ') PUnit}
    (h : ∀ a, Parallel A (f a) (g a)) : Parallel A (as.forM f) (as.forM g) := fun _ _ hfs =>
  (Mirrors.forM (fun a _ s t hst => (h a s t hst).mono (fun _ _ he => he) fun _ _ _ => True.intro)
    hfs).mono (fun _ _ he => he) fun _ _ _ => rfl

/-- A file that is opened and read to the end. -/
theorem ask_content {r : LayerFS υ ℓ → VfsResult Reader} {r' : LayerFS υ ℓ' → VfsResult Reader}
    {k : Bytes → VfsM (LayerFS υ ℓ) α} {l : Bytes → VfsM (LayerFS υ ℓ') α} {fs : LayerFS υ ℓ}
    {fs' : LayerFS υ ℓ'} (h : Abreast A fs fs')
    (hread : Alike Eq (r fs >>= Reader.readToEnd) (r' fs' >>= Reader.readToEnd))
    (hk : ∀ data, Parallel A (k data) (l data)) :
    Mirrors (Abreast A) (fun _ _ => True) Eq
      (Lib.ask r >>= fun reader => Lib.ask (fun _ => reader.readToEnd) >>= k)
      (Lib.ask r' >>= fun reader => Lib.ask (fun _ => reader.readToEnd) >>= l) fs fs' := by
  rw [Mirrors.ask_ask_bind, Mirrors.ask_ask_bind]
  refine Mirrors.ask_bind hread (fun _ _ _ _ => True.intro) h ?_
  rintro data _ - - rfl
  exact hk data fs fs' h

end Parallel

/-! ### Changes -/

section Changes

variable (A) [FileSystem υ] (p : Path)

theorem parallel_ensureUpperParents :
    Parallel A (ensureUpperParents p : VfsM (LayerFS υ ℓ) Unit)
      (ensureUpperParents p : VfsM (LayerFS υ ℓ') Unit) :=
  .onUpper _

theorem parallel_removeWhiteout :
    Parallel A (removeWhiteout p : VfsM (LayerFS υ ℓ) Unit)
      (removeWhiteout p : VfsM (LayerFS υ ℓ') Unit) :=
  .onUpper _

theorem parallel_createWhiteout :
    Parallel A (createWhiteout p : VfsM (LayerFS υ ℓ) Unit)
      (createWhiteout p : VfsM (LayerFS υ ℓ') Unit) :=
  (parallel_ensureUpperParents A _).bind fun _ => .onUpper _

theorem parallel_createDir :
    Parallel A (LayerFS.createDir p : VfsM (LayerFS υ ℓ) Unit)
      (LayerFS.createDir p : VfsM (LayerFS υ ℓ') Unit) :=
  (parallel_ensureUpperParents A p).bind fun _ => (parallel_removeWhiteout A p).bind fun _ => .onUpper _

theorem parallel_createFile :
    Parallel A (LayerFS.createFile p : VfsM (LayerFS υ ℓ) Writer)
      (LayerFS.createFile p : VfsM (LayerFS υ ℓ') Writer) :=
  (parallel_ensureUpperParents A p).bind fun _ => (parallel_removeWhiteout A p).bind fun _ => .onUpper _

theorem parallel_removeWith (removeUpper : Path → VfsM υ Unit) :
    Parallel A (removeWith removeUpper p : VfsM (LayerFS υ ℓ) Unit)
      (removeWith removeUpper p : VfsM (LayerFS υ ℓ') Unit) := by
  refine (Parallel.onUpper _).bind fun _ => (Parallel.ask fun fs fs' h => ?_).bind fun below =>
    Parallel.ite (parallel_createWhiteout A p) (.pure _)
  exact h.existsInLower p

theorem parallel_removeFile :
    Parallel A (LayerFS.removeFile p : VfsM (LayerFS υ ℓ) Unit)
      (LayerFS.removeFile p : VfsM (LayerFS υ ℓ') Unit) :=
  parallel_removeWith A p _

theorem parallel_removeDir :
    Parallel A (LayerFS.removeDir p : VfsM (LayerFS υ ℓ) Unit)
      (LayerFS.removeDir p : VfsM (LayerFS υ ℓ') Unit) :=
  parallel_removeWith A p _

variable (src dest : Path)

theorem parallel_copyFile :
    Parallel A (LayerFS.copyFile src dest : VfsM (LayerFS υ ℓ) Unit)
      (LayerFS.copyFile src dest : VfsM (LayerFS υ ℓ') Unit) := by
  intro fs fs' h
  refine Mirrors.ask_bind (h.found src) (fun _ _ _ _ => True.intro) h fun r r' _ _ hr => ?_
  exact Parallel.ask_content h (h.resolved_content hr src) fun data =>
    (parallel_ensureUpperParents A dest).bind fun _ => (parallel_removeWhiteout A dest).bind fun _ =>
      (Parallel.onUpper _).bind fun _ => .onUpper _

theorem parallel_moveFile :
    Parallel A (LayerFS.moveFile src dest : VfsM (LayerFS υ ℓ) Unit)
      (LayerFS.moveFile src dest : VfsM (LayerFS υ ℓ') Unit) :=
  (parallel_copyFile A src dest).bind fun _ => parallel_removeFile A src

/-- What a walk does with an entry: what it does with a directory, or with a file. -/
theorem parallel_entry {dir file : VfsM (LayerFS υ ℓ) Unit} {dir' file' : VfsM (LayerFS υ ℓ') Unit}
    (hdir : Parallel A dir dir') (hfile : Parallel A file file') :
    Parallel A (do
        let resolved ← ask fun fs : LayerFS υ ℓ => resolve p fs
        match resolved with
        | none => Pure.pure ()
        | some source =>
          let md ← ask fun fs : LayerFS υ ℓ => source.metadata p fs
          if md.fileType = .directory then dir else file)
      (do
        let resolved ← ask fun fs : LayerFS υ ℓ' => resolve p fs
        match resolved with
        | none => Pure.pure ()
        | some source =>
          let md ← ask fun fs : LayerFS υ ℓ' => source.metadata p fs
          if md.fileType = .directory then dir' else file') := by
  intro fs fs' h
  refine Mirrors.ask_bind (h.resolve p) (fun _ _ _ _ => True.intro) h ?_
  rintro _ _ - - (hr | _)
  · refine Mirrors.ask_bind (Alike.of_eq (fun _ => rfl) (h.resolved_metadata hr p))
      (fun _ _ _ _ => True.intro) h ?_
    rintro md _ - - rfl
    exact Mirrors.ite Iff.rfl (fun _ => hdir fs fs' h) fun _ => hfile fs fs' h
  · exact Parallel.pure () fs fs' h

theorem parallel_copyDirRecursive (frames : Nat) :
    Parallel A (copyDirRecursive frames src dest : VfsM (LayerFS υ ℓ) Unit)
      (copyDirRecursive frames src dest : VfsM (LayerFS υ ℓ') Unit) := by
  induction frames generalizing src dest with
  | zero => exact .throw _
  | succ frames ih =>
    refine (parallel_ensureUpperParents A dest).bind fun _ => (parallel_removeWhiteout A dest).bind
      fun _ => (Parallel.onUpper _).bind fun _ =>
        (Parallel.ask fun _ _ h => h.readDir src).bind fun names => Parallel.forM fun name => ?_
    exact parallel_entry A _ (ih _ _) (parallel_copyFile A _ _)

theorem parallel_removeDirRecursive (frames : Nat) :
    Parallel A (removeDirRecursive frames p : VfsM (LayerFS υ ℓ) Unit)
      (removeDirRecursive frames p : VfsM (LayerFS υ ℓ') Unit) := by
  induction frames generalizing p with
  | zero => exact .throw _
  | succ frames ih =>
    refine (Parallel.ask fun _ _ h => h.readDir p).bind fun names =>
      (Parallel.forM fun name => ?_).bind fun _ => (Parallel.onUpper _).bind fun _ =>
        parallel_removeDir A p
    exact parallel_entry A _ (ih _) (parallel_removeFile A _)

theorem parallel_moveDir (frames : Nat) :
    Parallel A (LayerFS.moveDir frames src dest : VfsM (LayerFS υ ℓ) Unit)
      (LayerFS.moveDir frames src dest : VfsM (LayerFS υ ℓ') Unit) :=
  (parallel_copyDirRecursive A src dest frames).bind fun _ => parallel_removeDirRecursive A src frames

end Changes

/-! ### Changes through `VfsPath` -/

section VfsPath

variable (A) [FileSystem υ] (p src dest : Path)

theorem parallel_getParent (action : String) :
    Parallel A (ask (VfsPath.getParent action p) : VfsM (LayerFS υ ℓ) Unit)
      (ask (VfsPath.getParent action p) : VfsM (LayerFS υ ℓ') Unit) := by
  refine Parallel.ask fun fs fs' h => ?_
  refine (h.existsAt p.dropLast).bind ?_
  rintro there _ - - rfl
  cases there with
  | false => exact True.intro
  | true =>
    refine (h.metadata p.dropLast).bind ?_
    rintro md _ - - rfl
    exact Alike.of_eq (fun _ => rfl) rfl

theorem parallel_vfsCreateDir :
    Parallel A (VfsPath.createDir p : VfsM (LayerFS υ ℓ) Unit)
      (VfsPath.createDir p : VfsM (LayerFS υ ℓ') Unit) :=
  (parallel_getParent A p _).bind fun _ => parallel_createDir A p

theorem parallel_vfsCreateFile :
    Parallel A (VfsPath.createFile p : VfsM (LayerFS υ ℓ) Writer)
      (VfsPath.createFile p : VfsM (LayerFS υ ℓ') Writer) :=
  (parallel_getParent A p _).bind fun _ => parallel_createFile A p

/-- A move goes on where its destination is free. -/
theorem parallel_unlessThere {x : VfsM (LayerFS υ ℓ) Unit} {y : VfsM (LayerFS υ ℓ') Unit}
    (h : Parallel A x y) (e : VfsError) :
    Parallel A (do
        if ← ask fun fs : LayerFS υ ℓ => FileSystem.existsAt fs dest then throw e else x)
      (do
        if ← ask fun fs : LayerFS υ ℓ' => FileSystem.existsAt fs dest then throw e else y) :=
  (Parallel.ask fun _ _ h => h.existsAt dest).bind fun _ => Parallel.ite (.throw _) h

theorem parallel_vfsMoveFile :
    Parallel A (VfsPath.moveFile src dest : VfsM (LayerFS υ ℓ) Unit)
      (VfsPath.moveFile src dest : VfsM (LayerFS υ ℓ') Unit) :=
  parallel_unlessThere A dest (parallel_moveFile A src dest) _

theorem parallel_vfsMoveDir (frames : Nat) :
    Parallel A (VfsPath.moveDir frames src dest : VfsM (LayerFS υ ℓ) Unit)
      (VfsPath.moveDir frames src dest : VfsM (LayerFS υ ℓ') Unit) :=
  parallel_unlessThere A dest (parallel_moveDir A src dest frames) _

end VfsPath

end Rspacefs
