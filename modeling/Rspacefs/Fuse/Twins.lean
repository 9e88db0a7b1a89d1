import Rspacefs.Core.Alongside
import Rspacefs.Fuse.Passive
import Rspacefs.Lib.Run

/-!
# The same daemon over lower layers of another kind

Two daemons with one upper directory, over lower layers that answer alike, reply alike to every
request and stay side by side. A file that the kernel would read itself is read through both of
them here, a directory, which need not fail to be read in the same way, is not opened as a file,
and reads are answered from buffers.

## Main definitions

* `SameDisk` — two layer directories answer alike, also past the overlay
* `Fuse.Twins` — two daemons side by side
* `Fuse.Usual` — the requests on which they agree
* `Fuse.replies` — what a run is answered

## Main results

* `Fuse.Twins.step` — one request
* `Fuse.Twins.run` — every run
-/

namespace Rspacefs

open Lib

variable {υ ℓ ℓ' : Type}

/-- Layer directories that answer alike, also to who looks past the overlay. What does not open
in one does not open in the other. -/
structure SameDisk [PhysicalFS ℓ] [PhysicalFS ℓ'] (l : ℓ) (l' : ℓ') : Prop
    extends Alongside l l' where
  opens : ∀ p r', openFile l' p = .ok r' → ∃ r, openFile l p = .ok r
  symlinkMetadata : ∀ p, symlinkMetadata l p = symlinkMetadata l' p
  readLink : ∀ p, readLink l p = readLink l' p
  fileContent : ∀ p, Alike Eq (fileContent l p) (fileContent l' p)

/-- Layer directories are paired that answer alike. -/
def sameDisks (ℓ ℓ' : Type) [PhysicalFS ℓ] [PhysicalFS ℓ'] : Pairing ℓ ℓ' :=
  ⟨SameDisk, fun _ _ h => h.toAlongside⟩

/-! ### Layer directories -/

section Disks

variable [PhysicalFS υ] [PhysicalFS ℓ] [PhysicalFS ℓ'] {fs : LayerFS υ ℓ} {fs' : LayerFS υ ℓ'}
  (h : Abreast (sameDisks ℓ ℓ') fs fs') (p : Path)
include h

omit [PhysicalFS υ] in
theorem Abreast.firstWithEntry (i : Nat) :
    firstWithEntry p i fs.lower = firstWithEntry p i fs'.lower := by
  have hfirst : ∀ {ls : List ℓ} {ls' : List ℓ'}, List.Forall₂ SameDisk ls ls' →
      ∀ i, Rspacefs.firstWithEntry p i ls = Rspacefs.firstWithEntry p i ls' := by
    intro ls ls' hls
    induction hls with
    | nil => exact fun _ => rfl
    | cons hl _ ih =>
      intro i
      rw [Rspacefs.firstWithEntry, Rspacefs.firstWithEntry, hl.symlinkMetadata, ih]
  exact hfirst h.lower i

theorem Abreast.physicalForWithLayer :
    physicalForWithLayer p fs = physicalForWithLayer p fs' := by
  unfold Rspacefs.physicalForWithLayer
  rw [h.upper, h.firstWithEntry]

omit [PhysicalFS υ] in
/-- The lower directory of an index. -/
theorem Abreast.lower_at (i : Nat) : Option.Rel SameDisk (fs.lower[i]?) (fs'.lower[i]?) := by
  have hat : ∀ {ls : List ℓ} {ls' : List ℓ'}, List.Forall₂ SameDisk ls ls' →
      ∀ i : Nat, Option.Rel SameDisk (ls[i]?) (ls'[i]?) := by
    intro ls ls' hls
    induction hls with
    | nil => exact fun _ => .none
    | cons hl _ ih =>
      intro i
      cases i with
      | zero => exact .some hl
      | succ i => exact ih i
  exact hat h.lower i

theorem Abreast.layerMetadata (i : Nat) :
    Fuse.layerMetadata fs p i = Fuse.layerMetadata fs' p i := by
  cases i with
  | zero => rw [Fuse.layerMetadata, Fuse.layerMetadata, h.upper]
  | succ i =>
    rw [Fuse.layerMetadata, Fuse.layerMetadata]
    have hat := h.lower_at i
    cases hl : fs.lower[i]? with
    | none =>
      rw [hl] at hat
      rw [eq_none_of_rel_none hat]
      rfl
    | some l =>
      rw [hl] at hat
      obtain ⟨l', hl', hsame⟩ := exists_of_rel_some hat
      rw [hl']
      exact hsame.symlinkMetadata p

theorem Abreast.physicalMetadata : Fuse.physicalMetadata p fs = Fuse.physicalMetadata p fs' := by
  rw [Fuse.physicalMetadata, Fuse.physicalMetadata, h.physicalForWithLayer]
  exact congrArg _ (funext fun i => h.layerMetadata p i)

theorem Abreast.makeAttr (ino : Ino) (ft : VfsFileType) (size : Nat) :
    Fuse.makeAttr ino p ft size fs = Fuse.makeAttr ino p ft size fs' := by
  rw [Fuse.makeAttr, Fuse.makeAttr, h.physicalMetadata]

/-- What the overlay over `fs'` opens, the one over `fs` opens. -/
theorem Abreast.opens {r' : Reader} (hopen : LayerFS.openFile p fs' = .ok r') :
    ∃ r, LayerFS.openFile p fs = .ok r := by
  unfold LayerFS.openFile at hopen ⊢
  rw [← bind_assoc] at hopen ⊢
  obtain ⟨found', hfound', hopen⟩ := except_bind_eq_ok.mp hopen
  have hfound := h.found p
  rw [hfound'] at hfound
  cases hresolved : (LayerFS.resolve p fs >>= LayerFS.orNotFound) with
  | error e =>
    rw [hresolved] at hfound
    exact hfound.elim
  | ok found =>
    rw [hresolved] at hfound
    rw [ok_bind]
    cases hfound with
    | upper => exact ⟨r', by rwa [LayerFS.Resolved.openFile, h.upper]⟩
    | lower i hl => exact SameDisk.opens hl p r' hopen

end Disks

namespace Fuse

/-- Two files of the open tables. The readers belong to different layers. -/
inductive SameFile : OpenFile → OpenFile → Prop
  | streaming (r r' : Reader) : SameFile (.streaming r) (.streaming r')
  | buffered (path : Path) (data : Bytes) (dirty writable : Bool) :
    SameFile (.buffered path data dirty writable) (.buffered path data dirty writable)

/-- Two daemons side by side. Which layers they take for verified is left open. -/
structure Twins [PhysicalFS ℓ] [PhysicalFS ℓ'] (s : Fuse υ ℓ) (t : Fuse υ ℓ') : Prop where
  root : Abreast (sameDisks ℓ ℓ') s.root t.root
  inodes : s.inodes = t.inodes
  paths : s.paths = t.paths
  nextIno : s.nextIno = t.nextIno
  nextFh : s.nextFh = t.nextFh
  openFiles : ∀ fh, Option.Rel SameFile (s.openFiles fh) (t.openFiles fh)
  unbacked : ∀ ino, s.backingCache ino = none
  unbacked' : ∀ ino, t.backingCache ino = none
  frames : s.frames = t.frames

section Parts

variable [PhysicalFS ℓ] [PhysicalFS ℓ']

/-- The two handlers do the same in daemons side by side. -/
def Matching {α : Type} (x : FuseM υ ℓ α) (y : FuseM υ ℓ' α) : Prop :=
  ∀ s t, Twins s t → Mirrors Twins Eq Eq x y s t

variable {α β : Type} {x : FuseM υ ℓ α} {y : FuseM υ ℓ' α} {path : Path} {fh : Fh} {ino : Ino}

/-- A question that both answer in the same way here. -/
theorem Twins.ask {s : Fuse υ ℓ} {t : Fuse υ ℓ'} {g : Fuse υ ℓ → Except Errno α}
    {g' : Fuse υ ℓ' → Except Errno α} (h : Twins s t) (hg : g s = g' t) :
    Mirrors Twins Eq Eq (Lib.ask g) (Lib.ask g') s t := by
  refine Mirrors.ask (Alike.of_eq (fun _ => rfl) hg) ?_ h
  intro e e' he he'
  rw [hg, he'] at he
  exact Except.error.inj he.symm

namespace Matching

theorem pure (a : α) : Matching (Pure.pure a : FuseM υ ℓ α) (Pure.pure a : FuseM υ ℓ' α) :=
  fun _ _ h => Mirrors.pure rfl h

theorem throw (e : Errno) :
    Matching (MonadExcept.throw e : FuseM υ ℓ α) (MonadExcept.throw e : FuseM υ ℓ' α) :=
  fun _ _ h => Mirrors.throw rfl h

theorem bind {k : α → FuseM υ ℓ β} {l : α → FuseM υ ℓ' β} (hx : Matching x y)
    (hk : ∀ a, Matching (k a) (l a)) : Matching (x >>= k) (y >>= l) := by
  intro s t h
  refine (hx s t h).bind ?_
  rintro a _ s' t' - - rfl h'
  exact hk a s' t' h'

/-- A question that both answer in the same way. -/
theorem ask {g : Fuse υ ℓ → Except Errno α} {g' : Fuse υ ℓ' → Except Errno α}
    (hg : ∀ s t, Twins s t → g s = g' t) : Matching (Lib.ask g) (Lib.ask g') :=
  fun s t h => h.ask (hg s t h)

theorem ite {c : Prop} [Decidable c] {x' : FuseM υ ℓ α} {y' : FuseM υ ℓ' α} (h : Matching x y)
    (h' : Matching x' y') : Matching (if c then x else x') (if c then y else y') := by
  split
  · exact h
  · exact h'

end Matching

theorem failIf_matching (e : Errno) {c : Fuse υ ℓ → Bool} {c' : Fuse υ ℓ' → Bool}
    (h : ∀ s t, Twins s t → c s = c' t) : Matching (failIf e c) (failIf e c') :=
  .ask fun s t hst => by rw [h s t hst]

theorem doIf_matching {c : Bool} {x : FuseM υ ℓ Unit} {y : FuseM υ ℓ' Unit} (h : Matching x y) :
    Matching (doIf c x) (doIf c y) :=
  .ite h (.pure _)

theorem pathOf_matching : Matching (pathOf ino : FuseM υ ℓ Path) (pathOf ino : FuseM υ ℓ' Path) :=
  .ask fun s t h => by rw [h.inodes]

theorem join_matching (parent : Path) (name : Name) :
    Matching (join parent name : FuseM υ ℓ Path) (join parent name : FuseM υ ℓ' Path) :=
  .ite (.pure _) (.throw _)

theorem internPath_matching :
    Matching (internPath path : FuseM υ ℓ Ino) (internPath path : FuseM υ ℓ' Ino) := by
  intro s t h
  have hpaths : s.paths path = t.paths path := by rw [h.paths]
  cases hs : s.paths path with
  | some ino =>
    have hrun : (internPath path).run s = .ok ino s := by rw [run_internPath, hs]
    have hrun' : (internPath path).run t = .ok ino t := by rw [run_internPath, ← hpaths, hs]
    exact Mirrors.of_ok hrun hrun' rfl h
  | none =>
    have hrun : (internPath path).run s = .ok s.nextIno { s with
        paths := Function.update s.paths path (some s.nextIno)
        inodes := Function.update s.inodes s.nextIno (some path)
        nextIno := s.nextIno + 1 } := by rw [run_internPath, hs]
    have hrun' : (internPath path).run t = .ok t.nextIno { t with
        paths := Function.update t.paths path (some t.nextIno)
        inodes := Function.update t.inodes t.nextIno (some path)
        nextIno := t.nextIno + 1 } := by rw [run_internPath, ← hpaths, hs]
    exact Mirrors.of_ok hrun hrun' h.nextIno ⟨h.root, by simp only [h.inodes, h.nextIno],
      by simp only [h.paths, h.nextIno], congrArg (· + 1) h.nextIno, h.nextFh, h.openFiles,
      h.unbacked, h.unbacked', h.frames⟩

theorem unbind_matching :
    Matching (unbind path : FuseM υ ℓ Unit) (unbind path : FuseM υ ℓ' Unit) := by
  intro s t h
  have hpaths : s.paths path = t.paths path := by rw [h.paths]
  refine ⟨rfl, ?_⟩
  cases hs : s.paths path with
  | some ino =>
    simp only [← hpaths, hs]
    exact ⟨h.root, by simp only [h.inodes], by simp only [h.paths], h.nextIno, h.nextFh,
      h.openFiles, h.unbacked, h.unbacked', h.frames⟩
  | none =>
    simp only [← hpaths, hs]
    exact h

theorem rebind_matching (src dst : Path) :
    Matching (rebind src dst : FuseM υ ℓ Unit) (rebind src dst : FuseM υ ℓ' Unit) := by
  intro s t h
  have hpaths : s.paths src = t.paths src := by rw [h.paths]
  refine ⟨rfl, ?_⟩
  cases hs : s.paths src with
  | some ino =>
    simp only [← hpaths, hs]
    exact ⟨h.root, by simp only [h.inodes], by simp only [h.paths], h.nextIno, h.nextFh,
      h.openFiles, h.unbacked, h.unbacked', h.frames⟩
  | none =>
    simp only [← hpaths, hs]
    exact h

theorem allocFh_matching : Matching (allocFh : FuseM υ ℓ Fh) (allocFh : FuseM υ ℓ' Fh) := by
  intro s t h
  exact ⟨h.nextFh, h.root, h.inodes, h.paths, h.nextIno, congrArg (· + 1) h.nextFh, h.openFiles,
    h.unbacked, h.unbacked', h.frames⟩

theorem insertFile_matching {file file' : OpenFile} (hfile : SameFile file file') :
    Matching (insertFile fh file : FuseM υ ℓ Unit) (insertFile fh file' : FuseM υ ℓ' Unit) := by
  intro s t h
  refine ⟨rfl, h.root, h.inodes, h.paths, h.nextIno, h.nextFh, fun fh' => ?_, h.unbacked,
    h.unbacked', h.frames⟩
  by_cases hfh : fh' = fh
  · subst hfh
    simp only [Function.update_self]
    exact .some hfile
  · simp only [Function.update_of_ne hfh]
    exact h.openFiles fh'

theorem removeFile_matching :
    Matching (removeFile fh : FuseM υ ℓ Unit) (removeFile fh : FuseM υ ℓ' Unit) := by
  intro s t h
  refine ⟨rfl, h.root, h.inodes, h.paths, h.nextIno, h.nextFh, fun fh' => ?_, h.unbacked,
    h.unbacked', h.frames⟩
  by_cases hfh : fh' = fh
  · subst hfh
    simp only [Function.update_self]
    exact .none
  · simp only [Function.update_of_ne hfh]
    exact h.openFiles fh'

/-- A handler that goes on with an open file. -/
theorem Twins.fileOf_mirrors {s : Fuse υ ℓ} {t : Fuse υ ℓ'} (h : Twins s t)
    {k : OpenFile → FuseM υ ℓ β} {l : OpenFile → FuseM υ ℓ' β}
    (hk : ∀ file file', s.openFiles fh = some file → SameFile file file' →
      Matching (k file) (l file')) :
    Mirrors Twins Eq Eq (fileOf fh >>= k) (fileOf fh >>= l) s t := by
  have hrel := h.openFiles fh
  cases hs : s.openFiles fh with
  | none =>
    rw [hs] at hrel
    have hask : (fileOf fh : FuseM υ ℓ OpenFile).run s = .error .ebadf s := by
      rw [fileOf, run_ask, hs]
    have hask' : (fileOf fh : FuseM υ ℓ' OpenFile).run t = .error .ebadf t := by
      rw [fileOf, run_ask, eq_none_of_rel_none hrel]
    exact Mirrors.of_error (run_bind_of_error hask) (run_bind_of_error hask') rfl h
  | some file =>
    rw [hs] at hrel
    obtain ⟨file', ht, hfile⟩ := exists_of_rel_some hrel
    have hs' : (fileOf fh : FuseM υ ℓ OpenFile).run s = .ok file s := by rw [fileOf, run_ask, hs]
    have ht' : (fileOf fh : FuseM υ ℓ' OpenFile).run t = .ok file' t := by
      rw [fileOf, run_ask, ht]
    have hask : Mirrors Twins Eq (fun f f' => f = file ∧ SameFile f f')
        (fileOf fh : FuseM υ ℓ OpenFile) (fileOf fh : FuseM υ ℓ' OpenFile) s t :=
      Mirrors.of_ok hs' ht' ⟨rfl, hfile⟩ h
    refine hask.bind ?_
    rintro f f' s' t' - - ⟨rfl, hf⟩ h'
    exact hk f f' hs hf s' t' h'

theorem fileOf_matching {k : OpenFile → FuseM υ ℓ β} {l : OpenFile → FuseM υ ℓ' β}
    (hk : ∀ file file', SameFile file file' → Matching (k file) (l file')) :
    Matching (fileOf fh >>= k) (fileOf fh >>= l) :=
  fun _ _ h => h.fileOf_mirrors fun file file' _ => hk file file'

theorem Twins.withRoot {s : Fuse υ ℓ} {t : Fuse υ ℓ'} (h : Twins s t) (fs : LayerFS υ ℓ)
    (fs' : LayerFS υ ℓ') (hfs : Abreast (sameDisks ℓ ℓ') fs fs') :
    Twins { s with root := fs } { t with root := fs' } :=
  ⟨hfs, h.inodes, h.paths, h.nextIno, h.nextFh, h.openFiles, h.unbacked, h.unbacked', h.frames⟩

/-- A call on the overlay. -/
theorem onRoot_matching (errno : Errno) {x : VfsM (LayerFS υ ℓ) α} {y : VfsM (LayerFS υ ℓ') α}
    (h : Parallel (sameDisks ℓ ℓ') x y) : Matching (onRoot errno x) (onRoot errno y) := by
  intro s t hst
  have hcall : Mirrors (Abreast (sameDisks ℓ ℓ')) Eq Eq
      (EStateM.adaptExcept (fun _ => errno) x) (EStateM.adaptExcept (fun _ => errno) y)
      s.root t.root :=
    (h s.root t.root hst.root).adaptExcept fun _ _ => rfl
  exact hcall.onPart hst.withRoot

theorem onUpperDir_matching (x : VfsM υ α) :
    Matching (onUpperDir x : FuseM υ ℓ α) (onUpperDir x : FuseM υ ℓ' α) :=
  onRoot_matching .host (.onUpper x)

theorem attempt_matching {x : FuseM υ ℓ α} {y : FuseM υ ℓ' α} (h : Matching x y) :
    Matching (attempt x) (attempt y) := fun s t hst =>
  ((h s t hst).attempt).mono (fun _ _ he => he) fun _ _ _ => rfl

end Parts

/-! ### Looking, and copying into the upper directory -/

section Handlers

variable [PhysicalFS υ] [PhysicalFS ℓ] [PhysicalFS ℓ'] {path : Path} {fh : Fh} {ino parent : Ino}
  {name : Name}

theorem Twins.existsInRoot_eq {s : Fuse υ ℓ} {t : Fuse υ ℓ'} (h : Twins s t) :
    existsInRoot path s = existsInRoot path t := by
  have hexists : Alike Eq (existsAt s.root path) (existsAt t.root path) := h.root.existsAt path
  unfold existsInRoot
  cases hs : existsAt s.root path with
  | ok b =>
    rw [hs] at hexists
    obtain ⟨_, hb, rfl⟩ := hexists.exists_ok
    rw [hb]
  | error e =>
    rw [hs] at hexists
    obtain ⟨e', he⟩ := hexists.exists_error
    rw [he]
    rfl

theorem Twins.isDirInRoot_eq {s : Fuse υ ℓ} {t : Fuse υ ℓ'} (h : Twins s t) :
    isDirInRoot path s = isDirInRoot path t := by
  have hmetadata : Alike Eq (metadata s.root path) (metadata t.root path) := h.root.metadata path
  unfold isDirInRoot
  cases hs : metadata s.root path with
  | ok md =>
    rw [hs] at hmetadata
    obtain ⟨_, hmd, rfl⟩ := hmetadata.exists_ok
    rw [hmd]
  | error e =>
    rw [hs] at hmetadata
    obtain ⟨e', he⟩ := hmetadata.exists_error
    rw [he]

theorem attrNow_matching (ft : VfsFileType) :
    Matching (attrNow ino path ft : FuseM υ ℓ FileAttr) (attrNow ino path ft : FuseM υ ℓ' FileAttr) :=
  .ask fun s t h => by rw [h.root.makeAttr]

theorem unlessPhysical_matching (e : Errno) :
    Matching (failIf e fun s : Fuse υ ℓ => (physicalForWithLayer path s.root).isNone)
      (failIf e fun s : Fuse υ ℓ' => (physicalForWithLayer path s.root).isNone) :=
  failIf_matching e fun s t h => by rw [h.root.physicalForWithLayer]

theorem unlessThere_matching (e : Errno) :
    Matching (failIf e fun s : Fuse υ ℓ => !existsInRoot path s)
      (failIf e fun s : Fuse υ ℓ' => !existsInRoot path s) :=
  failIf_matching e fun s t h => by rw [h.existsInRoot_eq]

theorem attrForPath_matching :
    Matching (attrForPath ino path : FuseM υ ℓ FileAttr)
      (attrForPath ino path : FuseM υ ℓ' FileAttr) :=
  (unlessPhysical_matching .enoent).bind fun _ => attrNow_matching .file

theorem copyEntry_matching {l : ℓ} {l' : ℓ'} (hl : SameDisk l l') :
    Matching (copyEntry l path : FuseM υ ℓ Unit) (copyEntry l' path : FuseM υ ℓ' Unit) := by
  unfold copyEntry
  rw [hl.symlinkMetadata, hl.readLink]
  cases symlinkMetadata l' path with
  | none => exact .throw _
  | some m =>
    refine (onUpperDir_matching _).bind fun _ => ?_
    cases m.kind with
    | symlink =>
      cases readLink l' path with
      | none => exact .throw _
      | some target => exact onUpperDir_matching _
    | directory => exact onUpperDir_matching _
    | regularFile =>
      have hcontent := hl.fileContent path
      cases hc : fileContent l path with
      | ok data =>
        rw [hc] at hcontent
        obtain ⟨_, hc', rfl⟩ := hcontent.exists_ok
        rw [hc']
        exact onUpperDir_matching _
      | error e =>
        -- whatever the host gives, nothing is written
        rw [hc] at hcontent
        obtain ⟨e', hc'⟩ := hcontent.exists_error
        rw [hc']
        exact fun s t h => Mirrors.of_error rfl rfl rfl h

theorem dropWhiteout_matching :
    Matching (dropWhiteout path : FuseM υ ℓ Unit) (dropWhiteout path : FuseM υ ℓ' Unit) :=
  attempt_matching (onUpperDir_matching _)

theorem lowerSource_eq_error {fs : LayerFS υ ℓ} {e : Errno} (h : lowerSource path fs = .error e) :
    e = .enoent := by
  unfold lowerSource at h
  split at h
  · split at h
    · cases h
    · exact (Except.error.inj h).symm
  · exact (Except.error.inj h).symm

theorem alike_lowerSource {fs : LayerFS υ ℓ} {fs' : LayerFS υ ℓ'}
    (h : Abreast (sameDisks ℓ ℓ') fs fs') (path : Path) :
    Alike SameDisk (lowerSource path fs) (lowerSource path fs') := by
  unfold lowerSource
  rw [h.physicalForWithLayer]
  cases physicalForWithLayer path fs' with
  | none => exact True.intro
  | some k =>
    cases k with
    | zero => exact True.intro
    | succ i =>
      have hat := h.lower_at i
      dsimp only
      cases hl : fs.lower[i]? with
      | none =>
        rw [hl] at hat
        rw [eq_none_of_rel_none hat]
        exact True.intro
      | some l =>
        rw [hl] at hat
        obtain ⟨l', hl', hsame⟩ := exists_of_rel_some hat
        rw [hl']
        exact hsame

theorem ensureInUpper_matching :
    Matching (ensureInUpper path : FuseM υ ℓ Unit) (ensureInUpper path : FuseM υ ℓ' Unit) := by
  refine (Matching.ask fun s t h => by rw [h.root.upper]).bind fun there =>
    Matching.ite (.pure _) ?_
  intro s t h
  refine Mirrors.ask_bind (alike_lowerSource h.root path) ?_ h ?_
  · intro e e' he he'
    rw [lowerSource_eq_error he, lowerSource_eq_error he']
  · intro l l' _ _ hl
    exact (copyEntry_matching hl).bind (fun _ => dropWhiteout_matching) s t h

/-! ### The handlers -/

theorem lookup_matching :
    Matching (lookup parent name : FuseM υ ℓ Reply) (lookup parent name : FuseM υ ℓ' Reply) :=
  pathOf_matching.bind fun d => (join_matching d name).bind fun _ =>
    (unlessPhysical_matching .enoent).bind fun _ => internPath_matching.bind fun _ =>
      (attrNow_matching .file).bind fun _ => .pure _

theorem getattr_matching :
    Matching (getattr ino : FuseM υ ℓ Reply) (getattr ino : FuseM υ ℓ' Reply) :=
  pathOf_matching.bind fun _ => attrForPath_matching.bind fun _ => .pure _

theorem setattr_matching (attrs : SetAttr) :
    Matching (setattr ino attrs : FuseM υ ℓ Reply) (setattr ino attrs : FuseM υ ℓ' Reply) :=
  pathOf_matching.bind fun path =>
    (doIf_matching ((onRoot_matching .eio (parallel_vfsCreateFile _ path)).bind
      fun _ => .pure _)).bind fun _ =>
    (doIf_matching (ensureInUpper_matching.bind fun _ => .ask fun _ _ _ => rfl)).bind fun _ =>
      attrForPath_matching.bind fun _ => .pure _

theorem listEntries_matching (names : List Name) :
    Matching (listEntries path names : FuseM υ ℓ _) (listEntries path names : FuseM υ ℓ' _) := by
  induction names with
  | nil => exact .pure _
  | cons n names ih =>
    exact (Matching.ask fun s t h => by rw [h.root.physicalMetadata]).bind fun _ =>
      internPath_matching.bind fun _ => ih.bind fun _ => .pure _

theorem readdir_matching (offset capacity : Nat) :
    Matching (readdir ino offset capacity : FuseM υ ℓ Reply)
      (readdir ino offset capacity : FuseM υ ℓ' Reply) :=
  pathOf_matching.bind fun path =>
    (onRoot_matching .eio (Parallel.ask fun _ _ h => h.readDir path)).bind fun names =>
      (Matching.ask fun s t h => by rw [h.paths]).bind fun _ =>
        (listEntries_matching names).bind fun _ => .pure _

theorem mkdir_matching :
    Matching (mkdir parent name : FuseM υ ℓ Reply) (mkdir parent name : FuseM υ ℓ' Reply) :=
  pathOf_matching.bind fun d => (join_matching d name).bind fun path =>
    (failIf_matching .eexist fun _ _ h => h.existsInRoot_eq).bind fun _ =>
      (onRoot_matching .eio (parallel_vfsCreateDir _ path)).bind fun _ =>
        internPath_matching.bind fun _ => (attrNow_matching .directory).bind fun _ => .pure _

theorem Twins.readDir_isEmpty {s : Fuse υ ℓ} {t : Fuse υ ℓ'} (h : Twins s t) (path : Path) :
    (unwrapOr [] (readDir s.root path)).isEmpty = (unwrapOr [] (readDir t.root path)).isEmpty := by
  have hlist : Alike Eq (readDir s.root path) (readDir t.root path) := h.root.readDir path
  cases hs : readDir s.root path with
  | ok names =>
    rw [hs] at hlist
    obtain ⟨_, hnames, rfl⟩ := hlist.exists_ok
    rw [hnames]
  | error e =>
    rw [hs] at hlist
    obtain ⟨e', he⟩ := hlist.exists_error
    rw [he]
    rfl

theorem rmdir_matching :
    Matching (rmdir parent name : FuseM υ ℓ Reply) (rmdir parent name : FuseM υ ℓ' Reply) :=
  pathOf_matching.bind fun d => (join_matching d name).bind fun path =>
    (failIf_matching .enotempty fun s t h => by rw [h.readDir_isEmpty]).bind fun _ =>
      (onRoot_matching .eio (parallel_removeDir _ path)).bind fun _ =>
        unbind_matching.bind fun _ => .pure _

omit [PhysicalFS υ] in
/-- A read of a buffer. -/
theorem Twins.read_mirrors {s : Fuse υ ℓ} {t : Fuse υ ℓ'} (h : Twins s t)
    (hbuffer : ∀ reader, s.openFiles fh ≠ some (.streaming reader)) (offset size : Nat) :
    Mirrors Twins Eq Eq (read fh offset size) (read fh offset size) s t := by
  refine h.fileOf_mirrors ?_
  rintro _ _ hfile (⟨reader, reader'⟩ | ⟨path, data, dirty, writable⟩)
  · exact absurd hfile (hbuffer reader)
  · exact .pure _

omit [PhysicalFS υ] in
theorem write_matching (offset : Nat) (bytes : Bytes) :
    Matching (write fh offset bytes : FuseM υ ℓ Reply)
      (write fh offset bytes : FuseM υ ℓ' Reply) := by
  refine fileOf_matching ?_
  rintro _ _ (hread | ⟨path, data, dirty, writable⟩)
  · exact .throw _
  · exact (failIf_matching .eacces fun _ _ _ => rfl).bind fun _ =>
      (insertFile_matching (.buffered ..)).bind fun _ => .pure _

theorem writeBack_matching (data : Bytes) :
    Matching (writeBack path data : FuseM υ ℓ Unit) (writeBack path data : FuseM υ ℓ' Unit) :=
  (onRoot_matching .eio (parallel_vfsCreateFile _ path)).bind fun _ =>
    onRoot_matching .eio (Parallel.onUpper _)

theorem release_matching :
    Matching (release fh : FuseM υ ℓ Reply) (release fh : FuseM υ ℓ' Reply) := by
  refine fileOf_matching ?_
  rintro _ _ (hread | ⟨path, data, dirty, writable⟩)
  · exact removeFile_matching.bind fun _ => .pure _
  · exact removeFile_matching.bind fun _ =>
      (doIf_matching (writeBack_matching data)).bind fun _ => .pure _

theorem fsync_matching : Matching (fsync fh : FuseM υ ℓ Reply) (fsync fh : FuseM υ ℓ' Reply) := by
  refine fileOf_matching ?_
  rintro _ _ (hread | ⟨path, data, dirty, writable⟩)
  · exact .pure _
  · exact (doIf_matching ((writeBack_matching data).bind fun _ =>
      insertFile_matching (.buffered ..))).bind fun _ => .pure _

theorem create_matching (flags : OpenFlags) :
    Matching (create parent name flags : FuseM υ ℓ Reply)
      (create parent name flags : FuseM υ ℓ' Reply) :=
  pathOf_matching.bind fun d => (join_matching d name).bind fun path =>
    (Matching.ask fun s t h => by rw [h.existsInRoot_eq]).bind fun there =>
      (failIf_matching .eexist fun _ _ _ => rfl).bind fun _ =>
        (doIf_matching ((onRoot_matching .eio (parallel_vfsCreateFile _ path)).bind
          fun _ => .pure _)).bind fun _ =>
          internPath_matching.bind fun _ => (attrNow_matching .file).bind fun _ =>
            allocFh_matching.bind fun _ => (insertFile_matching (.buffered ..)).bind fun _ =>
              .pure _

theorem unlink_matching :
    Matching (unlink parent name : FuseM υ ℓ Reply) (unlink parent name : FuseM υ ℓ' Reply) :=
  pathOf_matching.bind fun d => (join_matching d name).bind fun path =>
    (unlessThere_matching .enoent).bind fun _ =>
      (onRoot_matching .eio (parallel_removeFile _ path)).bind fun _ =>
        unbind_matching.bind fun _ => .pure _

theorem rename_matching (newparent : Ino) (newname : Name) :
    Matching (rename parent name newparent newname : FuseM υ ℓ Reply)
      (rename parent name newparent newname : FuseM υ ℓ' Reply) := by
  refine pathOf_matching.bind fun d => pathOf_matching.bind fun d' =>
    (join_matching d name).bind fun src => (join_matching d' newname).bind fun dst =>
      (Matching.ask fun s t h => by rw [h.frames]).bind fun frames =>
        (Matching.ask fun s t h => by rw [h.isDirInRoot_eq]).bind fun isDir =>
          (onRoot_matching .eio ?_).bind fun _ => (rebind_matching src dst).bind fun _ => .pure _
  exact Parallel.ite (parallel_vfsMoveDir _ src dst frames) (parallel_vfsMoveFile _ src dst)

theorem readlink_matching :
    Matching (readlink ino : FuseM υ ℓ Reply) (readlink ino : FuseM υ ℓ' Reply) := by
  refine pathOf_matching.bind fun _ => Matching.ask fun s t h => ?_
  rw [h.root.physicalForWithLayer]
  cases physicalForWithLayer _ t.root with
  | none => rfl
  | some k =>
    cases k with
    | zero =>
      dsimp only
      rw [h.root.upper]
    | succ i =>
      have hat := h.root.lower_at i
      dsimp only
      cases hl : s.root.lower[i]? with
      | none =>
        rw [hl] at hat
        rw [eq_none_of_rel_none hat]
        rfl
      | some l =>
        rw [hl] at hat
        obtain ⟨l', hl', hsame⟩ := exists_of_rel_some hat
        rw [hl', Option.bind_some, Option.bind_some, hsame.readLink]

theorem symlink_matching (link : Target) :
    Matching (symlink parent name link : FuseM υ ℓ Reply)
      (symlink parent name link : FuseM υ ℓ' Reply) :=
  pathOf_matching.bind fun d => (join_matching d name).bind fun _ =>
    dropWhiteout_matching.bind fun _ => (onUpperDir_matching _).bind fun _ =>
      (onUpperDir_matching _).bind fun _ => internPath_matching.bind fun _ =>
        (attrNow_matching .file).bind fun _ => .pure _

theorem changeXattr_matching (applied : Except Errno Unit) :
    Matching (changeXattr ino applied : FuseM υ ℓ Reply)
      (changeXattr ino applied : FuseM υ ℓ' Reply) :=
  pathOf_matching.bind fun _ => ensureInUpper_matching.bind fun _ =>
    (Matching.ask fun _ _ _ => rfl).bind fun _ => .pure _

/-! ### Opening -/

/-- What opens at a path can be read, so it is no directory. -/
def Readable (s : Fuse υ ℓ) (path : Path) : Prop :=
  ∀ r, openFile s.root path = .ok r → ∃ data, r.readToEnd = .ok data

section Opening

variable {s : Fuse υ ℓ} {t : Fuse υ ℓ'}

theorem Twins.openFile_alike (h : Twins s t) (hread : Readable s path) :
    Alike (fun r r' => Alike Eq r.readToEnd r'.readToEnd) (openFile s.root path)
      (openFile t.root path) := by
  have hcontent : Alike Eq (contentAt s.root path) (contentAt t.root path) := h.root.content path
  unfold contentAt at hcontent
  cases hs : openFile s.root path with
  | error e =>
    cases ht : openFile t.root path with
    | error e' => exact True.intro
    | ok r' =>
      obtain ⟨r, hr⟩ := h.root.opens path ht
      exact absurd (hs.symm.trans hr) nofun
  | ok r =>
    obtain ⟨data, hdata⟩ := hread r hs
    rw [hs, ok_bind, hdata] at hcontent
    obtain ⟨_, hbind, rfl⟩ := hcontent.exists_ok
    obtain ⟨r', ht, hdata'⟩ := except_bind_eq_ok.mp hbind
    rw [ht]
    change Alike Eq r.readToEnd r'.readToEnd
    rw [hdata, hdata']
    rfl

/-- A file is read into a buffer. -/
theorem Twins.openBuffered_mirrors (h : Twins s t) (hread : Readable s path) (flags : OpenFlags) :
    Mirrors Twins Eq Eq (openBuffered path flags fh) (openBuffered path flags fh) s t := by
  refine (unlessThere_matching .enoent s t h).bind fun _ _ s' t' hs ht _ _ => ?_
  obtain ⟨-, rfl⟩ := run_ask_eq_ok.mp hs
  obtain ⟨-, rfl⟩ := run_ask_eq_ok.mp ht
  refine (h.ask ?_).bind ?_
  · have hopen := h.openFile_alike hread
    split
    · rfl
    · cases hs : openFile s'.root path with
      | error e =>
        rw [hs] at hopen
        obtain ⟨e', ht⟩ := hopen.exists_error
        rw [ht]
      | ok r =>
        rw [hs] at hopen
        obtain ⟨r', ht, hdata⟩ := hopen.exists_ok
        obtain ⟨data, hr⟩ := hread r hs
        rw [hr] at hdata
        obtain ⟨_, hr', rfl⟩ := hdata.exists_ok
        rw [ht]
        dsimp only
        rw [hr, hr']
  · rintro data _ s' t' - - rfl h'
    exact ((insertFile_matching (.buffered ..)).bind fun _ => .pure _) s' t' h'

/-- A file that no kernel takes over is opened through the overlay. -/
theorem Twins.openReadOnly_mirrors (h : Twins s t) (hread : Readable s path) :
    Mirrors Twins Eq Eq (openReadOnly ino path false fh) (openReadOnly ino path false fh) s t := by
  have hs : (openBacking ino path false).run s = .ok none s :=
    run_openBacking_none (h.unbacked ino)
  have ht : (openBacking ino path false).run t = .ok none t :=
    run_openBacking_none (h.unbacked' ino)
  refine (Mirrors.of_ok (R := Twins) (E := Eq) (Q := fun b b' => b = none ∧ b' = none) hs ht
    ⟨rfl, rfl⟩ h).bind ?_
  rintro _ _ s₁ t₁ hs₁ ht₁ ⟨rfl, rfl⟩ -
  cases hs.symm.trans hs₁
  cases ht.symm.trans ht₁
  refine (unlessThere_matching .enoent s t h).bind fun _ _ s₁ t₁ hs₁ ht₁ _ _ => ?_
  obtain ⟨-, rfl⟩ := run_ask_eq_ok.mp hs₁
  obtain ⟨-, rfl⟩ := run_ask_eq_ok.mp ht₁
  have hopen : Mirrors (Abreast (sameDisks ℓ ℓ')) (fun _ _ => True)
      (fun r r' => Alike Eq r.readToEnd r'.readToEnd)
      (Lib.ask fun fs : LayerFS υ ℓ => openFile fs path)
      (Lib.ask fun fs : LayerFS υ ℓ' => openFile fs path) s₁.root t₁.root :=
    Mirrors.ask (h.openFile_alike hread) (fun _ _ _ _ => True.intro) h.root
  have hcall : Mirrors Twins Eq (fun r r' => Alike Eq r.readToEnd r'.readToEnd)
      (onRoot .eio (Lib.ask fun fs : LayerFS υ ℓ => openFile fs path))
      (onRoot .eio (Lib.ask fun fs : LayerFS υ ℓ' => openFile fs path)) s₁ t₁ :=
    (hopen.adaptExcept fun _ _ => rfl).onPart h.withRoot
  refine hcall.bind fun r r' s' t' _ _ _ h' => ?_
  exact ((insertFile_matching (.streaming r r')).bind fun _ => .pure _) s' t' h'

/-- Opening an inode at which there is no directory. -/
theorem Twins.openInode_mirrors (h : Twins s t)
    (hread : ∀ path, s.inodes ino = some path → Readable s path) (flags : OpenFlags) :
    Mirrors Twins Eq Eq (openInode ino flags false) (openInode ino flags false) s t := by
  refine (pathOf_matching s t h).bind ?_
  rintro path _ s' t' hs ht rfl -
  obtain ⟨hpath, rfl⟩ := run_ask_eq_ok.mp hs
  obtain ⟨-, rfl⟩ := run_ask_eq_ok.mp ht
  have hino : s'.inodes ino = some path := by
    cases hs' : s'.inodes ino with
    | none =>
      rw [hs'] at hpath
      cases hpath
    | some q =>
      rw [hs'] at hpath
      exact congrArg some (Except.ok.inj hpath)
  refine (allocFh_matching s' t' h).bind ?_
  rintro fh _ s t hs - rfl h'
  cases hs
  have hopened : Readable { s' with nextFh := s'.nextFh + 1 } path := hread path hino
  exact Mirrors.ite Iff.rfl (fun _ => h'.openBuffered_mirrors hopened flags)
    fun _ => h'.openReadOnly_mirrors hopened

end Opening

/-! ### Every request, and every run -/

/-- The requests on which daemons side by side agree: the kernel takes no file over, no directory
is opened as a file, and what is read is read from a buffer. The reader of a handle that is open
for reading only is left out, for it seeks in a file that may change under it. -/
def Usual (s : Fuse υ ℓ) : Request → Prop
  | .openInode ino _ backed =>
    backed = false ∧ ∀ path, s.inodes ino = some path → Readable s path
  | .read fh _ _ => ∀ reader, s.openFiles fh ≠ some (.streaming reader)
  | _ => True

/-- What a run is answered. -/
def replies (s : Fuse υ ℓ) : List Request → List (Except Errno Reply)
  | [] => []
  | r :: rs => respond s r :: replies (next s r) rs

section Runs

variable {s : Fuse υ ℓ} {t : Fuse υ ℓ'}

theorem Twins.step_mirrors (h : Twins s t) {r : Request} (hr : Usual s r) :
    Mirrors Twins Eq Eq (step r) (step r) s t := by
  cases r with
  | lookup parent name => exact lookup_matching s t h
  | getattr ino => exact getattr_matching s t h
  | setattr ino attrs => exact setattr_matching attrs s t h
  | readdir ino offset capacity => exact readdir_matching offset capacity s t h
  | mkdir parent name => exact mkdir_matching s t h
  | rmdir parent name => exact rmdir_matching s t h
  | openInode ino flags backed =>
    obtain ⟨rfl, hread⟩ := hr
    exact h.openInode_mirrors hread flags
  | read fh offset size => exact h.read_mirrors hr offset size
  | write fh offset data => exact write_matching offset data s t h
  | release fh => exact release_matching s t h
  | create parent name flags => exact create_matching flags s t h
  | unlink parent name => exact unlink_matching s t h
  | rename parent name newparent newname => exact rename_matching newparent newname s t h
  | readlink ino => exact readlink_matching s t h
  | symlink parent name link => exact symlink_matching link s t h
  | setxattr ino applied => exact changeXattr_matching applied s t h
  | removexattr ino applied => exact changeXattr_matching applied s t h
  | fsync fh => exact fsync_matching s t h
  | flush => exact Matching.pure _ s t h

/-- Both reply the same, and are side by side behind it. -/
theorem Twins.step (h : Twins s t) {r : Request} (hr : Usual s r) :
    respond s r = respond t r ∧ Twins (next s r) (next t r) := by
  have hstep := h.step_mirrors hr
  refine ⟨?_, hstep.finalState⟩
  unfold respond
  obtain ⟨a, b, s', t', hs, ht, rfl, -⟩ | ⟨e, e', s', t', hs, ht, rfl, -⟩ := hstep.cases
  · rw [hs, ht]
  · rw [hs, ht]

theorem Twins.run {rs : List Request} (h : Twins s t) (hrs : EachStep next Usual s rs) :
    replies s rs = replies t rs ∧ Twins (Fuse.run s rs) (Fuse.run t rs) := by
  induction rs generalizing s t with
  | nil => exact ⟨rfl, h⟩
  | cons r rs ih =>
    obtain ⟨hreply, hnext⟩ := h.step hrs.1
    obtain ⟨hreplies, hrest⟩ := ih hnext hrs.2
    exact ⟨congrArg₂ List.cons hreply hreplies, hrest⟩

end Runs

end Handlers

end Fuse

end Rspacefs
