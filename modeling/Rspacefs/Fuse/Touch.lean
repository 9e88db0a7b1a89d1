import Rspacefs.Core.Frame
import Rspacefs.Fuse.Passive

/-!
# What a request may touch

`writes s r` are the overlay paths at which the request `r`, arriving in state `s`,
may change the upper directory: a path named in the request, or the path an open file
was opened at. A request that is refused at once has none. A condition on the upper
directory that survives the calls near these paths survives the request. Two kinds of
requests reach further: renaming a directory reaches what lies below it, and planting a
link changes what is found below it.

## Main definitions

* `writes`, `creates` — where a request may change an entry, and where it may create
  a file
* `RenamesDir`, `PlantsLink` — the requests that reach further

## Main results

* `step_stacked` — what survives the calls a request makes survives the request
-/

namespace Rspacefs

open Lib

namespace Fuse

variable {υ ℓ α β : Type} {s : Fuse υ ℓ} {fs : LayerFS υ ℓ} {I : LayerFS υ ℓ → Prop}
  {path : Path} {ino : Ino} {fh : Fh}

/-! ### Calls on the overlay -/

/-- A call on the overlay keeps what its body keeps. -/
theorem onRoot_rooted {errno : Errno} {x : VfsM (LayerFS υ ℓ) α} {Q : α → LayerFS υ ℓ → Prop}
    {E : LayerFS υ ℓ → Prop} (h : Triple I x Q E) :
    Triple (fun s => I s.root) (onRoot errno x) (fun a s => Q a s.root) (fun s => E s.root) := by
  refine Triple.of_forall fun s hs => Triple.onPart s ?_
  exact (Triple.adaptExcept h).weaken (by rintro _ rfl; exact hs) (fun _ _ h => h) fun _ h => h

theorem onUpperDir_rooted {x : VfsM υ α} {Q E : υ → Prop} {J : υ → Prop} {lower : List ℓ}
    (h : Triple J x (fun _ => Q) E) :
    Triple (fun s : Fuse υ ℓ => Stacked J lower s.root) (onUpperDir x)
      (fun _ s => Stacked Q lower s.root) (fun s => Stacked E lower s.root) :=
  onRoot_rooted (onUpper_stacked h)

theorem doIf_triple {P : Fuse υ ℓ → Prop} {c : Bool} {x : FuseM υ ℓ Unit}
    (h : c = true → Triple P x (fun _ => P) P) : Triple P (doIf c x) (fun _ => P) P :=
  Triple.ite h fun _ => Triple.pure () fun _ h => h

/-- The path of a name in the directory an inode stands for. -/
def childPath (s : Fuse υ ℓ) (parent : Ino) (name : Name) : Option Path :=
  (s.inodes parent).map (· ++ [name])

theorem childPath_ne_nil {parent : Ino} {name : Name}
    (h : childPath s parent name = some path) : path ≠ [] := by
  obtain ⟨d, -, rfl⟩ := Option.map_eq_some_iff.mp h
  simp

theorem pathOf_from {Q : α → Fuse υ ℓ → Prop} {E : Fuse υ ℓ → Prop} {k : Path → FuseM υ ℓ α}
    (hE : E s) (h : ∀ path, s.inodes ino = some path → Triple (· = s) (k path) Q E) :
    Triple (· = s) (pathOf ino >>= k) Q E := by
  refine Triple.ask_from hE fun path hpath => h path ?_
  split at hpath <;> cases hpath
  assumption

theorem join_from {Q : α → Fuse υ ℓ → Prop} {E : Fuse υ ℓ → Prop} {d : Path} {name : Name}
    {k : Path → FuseM υ ℓ α} (hE : E s) (h : Triple (· = s) (k (d ++ [name])) Q E) :
    Triple (· = s) (join d name >>= k) Q E := by
  refine Triple.bind_from (R := fun path s' => s' = s ∧ path = d ++ [name]) ?_ ?_
  · exact Triple.ite (fun _ => Triple.pure _ (by rintro _ rfl; exact ⟨rfl, rfl⟩))
      fun _ => Triple.throw _ (by rintro _ rfl; exact hE)
  · rintro path _ ⟨rfl, rfl⟩
    exact h

theorem childPath_from {Q : α → Fuse υ ℓ → Prop} {E : Fuse υ ℓ → Prop} {parent : Ino}
    {name : Name} {k : Path → FuseM υ ℓ α} (hE : E s)
    (h : ∀ path, childPath s parent name = some path → Triple (· = s) (k path) Q E) :
    Triple (· = s) (pathOf parent >>= fun d => join d name >>= k) Q E := by
  refine pathOf_from hE fun d hd => join_from hE (h _ ?_)
  rw [childPath, hd]
  rfl

theorem failIf_from {Q : α → Fuse υ ℓ → Prop} {E : Fuse υ ℓ → Prop} {e : Errno}
    {c : Fuse υ ℓ → Bool} {k : Unit → FuseM υ ℓ α} (hE : E s)
    (h : c s = false → Triple (· = s) (k ()) Q E) : Triple (· = s) (failIf e c >>= k) Q E := by
  refine Triple.ask_from hE fun _ hc => h ?_
  split at hc
  · cases hc
  · simpa using ‹¬ c s = true›

/-- What `release` and `fsync` start with: the open file behind the handle. -/
theorem fileOf_from {Q : α → Fuse υ ℓ → Prop} {E : Fuse υ ℓ → Prop} {k : OpenFile → FuseM υ ℓ α}
    (hE : E s) (h : ∀ file, s.openFiles fh = some file → Triple (· = s) (k file) Q E) :
    Triple (· = s) (fileOf fh >>= k) Q E := by
  refine Triple.ask_from hE fun file hfile => h file ?_
  split at hfile <;> cases hfile
  assumption

/-- From the start of a request to any state with the same overlay. -/
theorem from_start {x : FuseM υ ℓ α} {Q : α → Fuse υ ℓ → Prop} {E : Fuse υ ℓ → Prop}
    (hI : I s.root) (h : Triple (fun s' => I s'.root) x Q E) : Triple (· = s) x Q E :=
  h.weaken (by rintro _ rfl; exact hI) (fun _ _ h => h) fun _ h => h

variable [PhysicalFS υ]

theorem dropWhiteout_stacked {J : υ → Prop} {lower : List ℓ}
    (h : KeptName J (whiteoutPath path)) :
    Triple (fun s : Fuse υ ℓ => Stacked J lower s.root) (dropWhiteout path)
      (fun _ s => Stacked J lower s.root) (fun s => Stacked J lower s.root) :=
  Triple.attempt (onUpperDir_rooted h.removeFile)

variable [PhysicalFS ℓ]

/-! ### Where a request writes -/

/-- A change of attributes copies the entry into the upper directory: that does not
have it, and some lower directory does. -/
def copied (path : Path) (fs : LayerFS υ ℓ) : Bool :=
  (symlinkMetadata fs.upper path).isNone && (physicalForWithLayer path fs).isSome

/-- The entry that a change of attributes copies. -/
def copies (s : Fuse υ ℓ) (ino : Ino) : Option Path :=
  (s.inodes ino).filter fun path => copied path s.root

/-- Both ends of a rename that has something to move and a free place for it. -/
def ends (s : Fuse υ ℓ) (parent : Ino) (name : Name) (newparent : Ino) (newname : Name) :
    Option (Path × Path) := do
  let src ← childPath s parent name
  let dst ← childPath s newparent newname
  if existsInRoot src s && !existsInRoot dst s then some (src, dst) else none

/-- The overlay paths at which a request may change the upper directory. -/
def writes (s : Fuse υ ℓ) : Request → List Path
  | .setattr ino attrs =>
    if attrs.size = some 0 then (s.inodes ino).toList
    else if attrs.needsUpper then (copies s ino).toList
    else []
  | .setxattr ino _ | .removexattr ino _ => (copies s ino).toList
  | .mkdir parent name =>
    ((childPath s parent name).filter fun path => !existsInRoot path s).toList
  | .rmdir parent name =>
    ((childPath s parent name).filter fun path => (unwrapOr [] (readDir s.root path)).isEmpty).toList
  | .create parent name flags =>
    ((childPath s parent name).filter fun path => !existsInRoot path s || flags.trunc).toList
  | .unlink parent name => ((childPath s parent name).filter fun path => existsInRoot path s).toList
  | .symlink parent name _ => (childPath s parent name).toList
  | .rename parent name newparent newname =>
    match ends s parent name newparent newname with
    | some (src, dst) => [src, dst]
    | none => []
  -- a dirty handle is written back to the path it was opened at
  | .release fh | .fsync fh => match s.openFiles fh with
    | some (.buffered path _ true _) => [path]
    | _ => []
  | _ => []

/-- Those at which it may create a file. -/
def creates (s : Fuse υ ℓ) : Request → List Path
  | .mkdir _ _ | .rmdir _ _ | .unlink _ _ | .symlink _ _ _ => []
  | .rename parent name newparent newname =>
    match ends s parent name newparent newname with
    | some (_, dst) => [dst]
    | none => []
  | r => writes s r

theorem mem_writes_of_mem_creates {r : Request} {x : Path} (hx : x ∈ creates s r) :
    x ∈ writes s r := by
  cases r <;> simp only [creates, List.not_mem_nil] at hx <;> try exact hx
  rw [writes]
  split at hx
  · exact List.mem_cons_of_mem _ hx
  · cases hx

/-- The request renames what the overlay takes for a directory. -/
def RenamesDir (s : Fuse υ ℓ) : Request → Prop
  | .rename parent name newparent newname =>
    ∃ src dst, ends s parent name newparent newname = some (src, dst) ∧ isDirInRoot src s = true
  | _ => False

/-- The entry that is copied into the upper directory is a link. -/
def CopiesLink (s : Fuse υ ℓ) (ino : Ino) : Prop :=
  ∃ path m, copies s ino = some path ∧ physicalMetadata path s.root = some m ∧ m.kind = .symlink

/-- The request may put a link into the upper directory. -/
def PlantsLink (s : Fuse υ ℓ) : Request → Prop
  | .symlink _ _ _ => True
  | .setattr ino attrs => attrs.size ≠ some 0 ∧ attrs.needsUpper = true ∧ CopiesLink s ino
  | .setxattr ino _ | .removexattr ino _ => CopiesLink s ino
  | _ => False

/-! ### What survives a request -/

variable {J J' : υ → Prop} {lower : List ℓ}

theorem vfsCreateFile_stacked (h : KeptFile J path) :
    Triple (Stacked J lower) (VfsPath.createFile path)
      (fun w => Stacked (fun u => w = ⟨path, 0⟩ ∧ (symlinkMetadata u path).isSome ∧ J u) lower)
      (Stacked J lower) :=
  Triple.bind ask_stacked fun _ => createFile_stacked h

theorem vfsCreateDir_stacked (h : KeptNear J path) :
    Triple (Stacked J lower) (VfsPath.createDir path) (fun _ => Stacked J lower)
      (Stacked J lower) :=
  Triple.bind ask_stacked fun _ => createDir_stacked h

theorem writeBack_stacked (data : Bytes) (h : KeptFile J path) :
    Triple (fun s : Fuse υ ℓ => Stacked J lower s.root) (writeBack path data)
      (fun _ s => Stacked J lower s.root) (fun s => Stacked J lower s.root) :=
  Triple.bind (onRoot_rooted (vfsCreateFile_stacked h)) fun w =>
    onRoot_rooted (writeAll_stacked h.file w data)

/-! ### Copying into the upper directory -/

theorem createDirAll_kept (current : Path) (parts : List Name)
    (h : ∀ q, q <+: current ++ parts → KeptName J q) :
    Triple J (createDirAll current parts) (fun _ => J) J := by
  induction parts generalizing current with
  | nil => exact Triple.pure () fun _ h => h
  | cons part rest ih =>
    have hstep : KeptName J (current ++ [part]) := h _ ⟨rest, by simp⟩
    refine Triple.bind (R := fun _ => J) (Triple.tryCatch hstep.createDir fun e => ?_)
      fun _ => ih _ fun q hq => h q (by simpa using hq)
    refine Triple.bind (R := fun _ => J) (Triple.ask (fun _ _ h _ => h) fun _ h => h) fun isDir => ?_
    exact Triple.ite (fun _ => Triple.pure () fun _ h => h) fun _ => Triple.throw _ fun _ h => h

theorem copyWithReflink_kept (content : VfsResult Bytes) (h : KeptAt J path) :
    Triple J (copyWithReflink content path) (fun _ => J) J := by
  refine Triple.bind (R := fun _ => J) (Triple.ask (fun _ _ h _ => h) fun _ h => h) fun data => ?_
  refine Triple.bind h.createFile fun w => Triple.of_forall fun u ⟨hw, _, hu⟩ => ?_
  subst hw
  exact (h.writeAll 0 data).weaken (by rintro _ rfl; exact hu) (fun _ _ h => h) fun _ h => h

/-- What a link planted at the path leaves of the condition is all that is asked after. -/
theorem copyEntry_stacked {layer : ℓ} (h : KeptFile J path) (hJ : ∀ u, J u → J' u)
    (hlink : ∀ m, symlinkMetadata layer path = some m → m.kind = .symlink →
      ∀ t, Triple J (PhysicalFS.symlink t path) (fun _ => J') J') :
    Triple (fun s : Fuse υ ℓ => Stacked J lower s.root) (copyEntry layer path)
      (fun _ s => Stacked J' lower s.root) (fun s => Stacked J' lower s.root) := by
  have hkeep : ∀ s : Fuse υ ℓ, Stacked J lower s.root → Stacked J' lower s.root :=
    fun s hs => ⟨hJ _ hs.1, hs.2⟩
  unfold copyEntry
  cases hm : symlinkMetadata layer path with
  | none => exact Triple.throw _ hkeep
  | some m =>
    refine Triple.bind ((onUpperDir_rooted (createDirAll_kept [] path.dropLast
      (by simpa using h.above))).weaken (fun _ h => h) (fun _ _ h => h) hkeep) fun _ => ?_
    cases hkind : m.kind with
    | symlink =>
      cases readLink layer path with
      | none => exact Triple.throw _ hkeep
      | some target => exact onUpperDir_rooted (hlink m hm hkind target)
    | directory =>
      exact (onUpperDir_rooted h.self.createDir).weaken (fun _ h => h) (fun _ => hkeep) hkeep
    | regularFile =>
      exact (onUpperDir_rooted (copyWithReflink_kept _ h.file)).weaken (fun _ h => h)
        (fun _ => hkeep) hkeep

theorem copied_of_lowerSource {layer : ℓ} (hupper : ¬ (symlinkMetadata fs.upper path).isSome)
    (hlayer : lowerSource path fs = .ok layer) : copied path fs = true := by
  rw [copied, Bool.and_eq_true, Option.isNone_iff_eq_none, ← Option.not_isSome_iff_eq_none]
  refine ⟨hupper, ?_⟩
  unfold lowerSource at hlayer
  split at hlayer
  · rename_i hi
    rw [hi]
    rfl
  · cases hlayer

theorem physicalMetadata_of_lowerSource {layer : ℓ} {m : LinkMetadata}
    (hlayer : lowerSource path fs = .ok layer) (hm : symlinkMetadata layer path = some m) :
    physicalMetadata path fs = some m := by
  unfold lowerSource at hlayer
  unfold physicalMetadata
  split at hlayer
  · rename_i i hi
    rw [hi]
    split at hlayer
    · rename_i layer' hget
      cases hlayer
      simpa [layerMetadata, hget] using hm
    · cases hlayer
  · cases hlayer

/-- Copying an entry, where `J'` is all that is asked after a link was planted. -/
theorem ensureInUpper_stacked (h : copied path fs = true → KeptFile J path)
    (hJ : ∀ u, J u → J' u) (hmark : copied path fs = true → KeptName J' (whiteoutPath path))
    (hfs : Stacked J lower fs)
    (hlink : copied path fs = true → ∀ m, physicalMetadata path fs = some m → m.kind = .symlink →
      ∀ t, Triple J (PhysicalFS.symlink t path) (fun _ => J') J') :
    Triple (fun s => s.root = fs) (ensureInUpper path) (fun _ s => Stacked J' lower s.root)
      (fun s => Stacked J' lower s.root) := by
  have hend : ∀ s : Fuse υ ℓ, s.root = fs → Stacked J' lower s.root := by
    rintro s rfl
    exact ⟨hJ _ hfs.1, hfs.2⟩
  refine Triple.bind (R := fun there s => s.root = fs ∧ there = (symlinkMetadata fs.upper path).isSome)
    (Triple.ask (by rintro s there rfl hthere; exact ⟨rfl, (Except.ok.inj hthere).symm⟩) hend)
    fun there => Triple.ite (fun _ => Triple.pure () fun s hs => hend s hs.1) fun hthere => ?_
  refine Triple.of_forall fun s ⟨hs, hentry⟩ => ?_
  subst hs
  refine Triple.ask_from (hend s rfl) fun layer hlayer => ?_
  have hcopied : copied path s.root = true := copied_of_lowerSource (by rwa [← hentry]) hlayer
  refine Triple.bind (R := fun _ s => Stacked J' lower s.root) ?_
    fun _ => dropWhiteout_stacked (hmark hcopied)
  exact Triple.weaken (P := fun s => Stacked J lower s.root) (copyEntry_stacked (h hcopied) hJ
    fun m hm hkind => hlink hcopied m (physicalMetadata_of_lowerSource hlayer hm) hkind)
    (by rintro _ rfl; exact hfs) (fun _ _ h => h) fun _ h => h

/-! ### One request -/

theorem createIn_stacked {c : Bool} (h : c = true → KeptFile J path) :
    Triple (fun s : Fuse υ ℓ => Stacked J lower s.root)
      (doIf c do let _ ← onRoot .eio (VfsPath.createFile path))
      (fun _ s => Stacked J lower s.root) (fun s => Stacked J lower s.root) :=
  doIf_triple fun hc => Triple.bind (onRoot_rooted (vfsCreateFile_stacked (h hc))) fun _ =>
    Triple.pure () fun _ h => ⟨h.1.2.2, h.2⟩

theorem mkdir_stacked {parent : Ino} {name : Name} (hJ : Stacked J lower s.root)
    (h : ∀ x ∈ writes s (.mkdir parent name), KeptNear J x) :
    Triple (· = s) (mkdir parent name) (fun _ s' => Stacked J lower s'.root)
      (fun s' => Stacked J lower s'.root) := by
  refine childPath_from hJ fun path hpath => failIf_from hJ fun hnew => from_start hJ ?_
  have hnear := h path (by simp [writes, hpath, hnew])
  exact Triple.bind (onRoot_rooted (vfsCreateDir_stacked hnear)) fun _ =>
    (Keeps.bind internPath_keeps fun _ => Keeps.bind (attrNow_keeps _) fun _ =>
      Keeps.pure _).triple

theorem rmdir_stacked {parent : Ino} {name : Name} (hJ : Stacked J lower s.root)
    (h : ∀ x ∈ writes s (.rmdir parent name), KeptNear J x) :
    Triple (· = s) (rmdir parent name) (fun _ s' => Stacked J lower s'.root)
      (fun s' => Stacked J lower s'.root) := by
  refine childPath_from hJ fun path hpath => failIf_from hJ fun hempty => from_start hJ ?_
  rw [Bool.not_eq_false'] at hempty
  have hnear := h path (by simp [writes, hpath, hempty])
  exact Triple.bind (onRoot_rooted (removeDir_stacked hnear)) fun _ =>
    (Keeps.bind unbind_keeps fun _ => Keeps.pure _).triple

theorem unlink_stacked {parent : Ino} {name : Name} (hJ : Stacked J lower s.root)
    (h : ∀ x ∈ writes s (.unlink parent name), KeptNear J x) :
    Triple (· = s) (unlink parent name) (fun _ s' => Stacked J lower s'.root)
      (fun s' => Stacked J lower s'.root) := by
  refine childPath_from hJ fun path hpath => failIf_from hJ fun hthere => from_start hJ ?_
  rw [Bool.not_eq_false'] at hthere
  have hnear := h path (by simp [writes, hpath, hthere])
  exact Triple.bind (onRoot_rooted (removeFile_stacked hnear)) fun _ =>
    (Keeps.bind unbind_keeps fun _ => Keeps.pure _).triple

theorem create_stacked {parent : Ino} {name : Name} {flags : OpenFlags}
    (hJ : Stacked J lower s.root)
    (h : ∀ x ∈ writes s (.create parent name flags), KeptFile J x) :
    Triple (· = s) (create parent name flags) (fun _ s' => Stacked J lower s'.root)
      (fun s' => Stacked J lower s'.root) := by
  refine childPath_from hJ fun path hpath => Triple.ask_from hJ fun there hthere =>
    failIf_from hJ fun _ => from_start hJ ?_
  rw [Except.ok.injEq] at hthere
  refine Triple.bind (createIn_stacked fun hc => h path ?_) fun _ => ?_
  · rw [← hthere] at hc
    simp [writes, hpath, hc]
  · exact (Keeps.bind internPath_keeps fun _ => Keeps.bind (attrNow_keeps _) fun _ =>
      Keeps.bind allocFh_keeps fun _ => Keeps.bind (insertFile_keeps _) fun _ => Keeps.pure _).triple

theorem release_stacked (hJ : Stacked J lower s.root)
    (h : ∀ x ∈ writes s (.release fh), KeptFile J x) :
    Triple (· = s) (release fh) (fun _ s' => Stacked J lower s'.root)
      (fun s' => Stacked J lower s'.root) := by
  refine fileOf_from hJ fun file hfile => from_start hJ ?_
  refine Triple.bind removeFile_keeps.triple fun _ => ?_
  cases file with
  | passthrough backing => exact (Keeps.pure _).triple
  | streaming reader => exact (Keeps.pure _).triple
  | buffered path data dirty writable =>
    refine Triple.bind (doIf_triple fun hdirty => writeBack_stacked data (h path ?_))
      fun _ => (Keeps.pure _).triple
    simp [writes, hfile, hdirty]

theorem fsync_stacked (hJ : Stacked J lower s.root)
    (h : ∀ x ∈ writes s (.fsync fh), KeptFile J x) :
    Triple (· = s) (fsync fh) (fun _ s' => Stacked J lower s'.root)
      (fun s' => Stacked J lower s'.root) := by
  refine fileOf_from hJ fun file hfile => from_start hJ ?_
  cases file with
  | passthrough backing => exact (Keeps.pure _).triple
  | streaming reader => exact (Keeps.pure _).triple
  | buffered path data dirty writable =>
    refine Triple.bind (doIf_triple fun hdirty => Triple.bind (writeBack_stacked data (h path ?_))
      fun _ => (insertFile_keeps _).triple) fun _ => (Keeps.pure _).triple
    simp [writes, hfile, hdirty]

theorem existsInRoot_of_resolve {source : LayerFS.Resolved ℓ}
    (h : LayerFS.resolve path s.root = .ok (some source)) : existsInRoot path s = true := by
  have hexists : existsAt s.root path = .ok true := by
    change LayerFS.existsAt path s.root = _
    rw [LayerFS.existsAt, h]
    rfl
  rw [existsInRoot, hexists, unwrapOr_ok]

theorem existsInRoot_of_isDirInRoot (h : isDirInRoot path s = true) : existsInRoot path s = true := by
  unfold isDirInRoot at h
  split at h
  · rename_i md hmd
    change LayerFS.metadata path s.root = _ at hmd
    obtain ⟨r, hresolve, hr⟩ := except_bind_eq_ok.mp hmd
    obtain ⟨source, hsource, -⟩ := except_bind_eq_ok.mp hr
    cases r with
    | none => cases hsource
    | some source => exact existsInRoot_of_resolve hresolve
  · cases h

/-- Moving what does not exist fails at once. -/
theorem moveFile_missing {dst : Path} (h : existsInRoot path s = false) :
    Triple (· = s.root) (LayerFS.moveFile path dst) (fun _ _ => False) (· = s.root) := by
  refine Triple.bind (R := fun _ _ => False) (Triple.ask_from rfl fun source hsource => ?_)
    fun _ _ => False.elim
  obtain ⟨r, hresolve, hr⟩ := except_bind_eq_ok.mp hsource
  cases r with
  | none => cases hr
  | some source' =>
    rw [existsInRoot_of_resolve hresolve] at h
    cases h

/-- What a rename calls on the overlay: it has something to move and a free place for it,
or fails at once. -/
theorem move_from {src dst : Path} {frames : Nat} {Q : Unit → LayerFS υ ℓ → Prop}
    {E : LayerFS υ ℓ → Prop} (hE : E s.root)
    (hdir : isDirInRoot src s = true → existsInRoot src s = true → existsInRoot dst s = false →
      Triple (· = s.root) (LayerFS.moveDir frames src dst) Q E)
    (hfile : isDirInRoot src s = false → existsInRoot src s = true → existsInRoot dst s = false →
      Triple (· = s.root) (LayerFS.moveFile src dst) Q E) :
    Triple (· = s.root)
      (if isDirInRoot src s then VfsPath.moveDir frames src dst else VfsPath.moveFile src dst)
      Q E := by
  refine Triple.ite (fun hisDir => ?_) fun hisDir => ?_ <;>
    refine Triple.ask_from hE fun there hthere => Triple.ite
      (fun _ => Triple.throw _ (by rintro _ rfl; exact hE)) fun hnot => ?_
  all_goals
    rw [Bool.not_eq_true] at hnot
    have hdst : existsInRoot dst s = false := by
      rw [existsInRoot, hthere, hnot, unwrapOr_ok]
  · exact hdir hisDir (existsInRoot_of_isDirInRoot hisDir) hdst
  · by_cases hsrc : existsInRoot src s = true
    · exact hfile (Bool.eq_false_of_not_eq_true hisDir) hsrc hdst
    · exact (moveFile_missing (Bool.eq_false_of_not_eq_true hsrc)).weaken (fun _ h => h)
        (fun _ _ => False.elim) (by rintro _ rfl; exact hE)

/-- The start of a rename, up to its call on the overlay. -/
theorem rename_from {parent newparent : Ino} {name newname : Name} {Q : Reply → Fuse υ ℓ → Prop}
    {E : Fuse υ ℓ → Prop} (hE : E s)
    (h : ∀ src dst, childPath s parent name = some src → childPath s newparent newname = some dst →
      Triple (· = s) (do
        onRoot .eio (if isDirInRoot src s then VfsPath.moveDir s.frames src dst
          else VfsPath.moveFile src dst)
        rebind src dst
        return .ok) Q E) :
    Triple (· = s) (rename parent name newparent newname) Q E := by
  refine pathOf_from hE fun d hd => pathOf_from hE fun d' hd' => join_from hE (join_from hE ?_)
  refine Triple.ask_from hE fun frames hframes => Triple.ask_from hE fun isDir hisDir => ?_
  rw [Except.ok.injEq] at hframes hisDir
  subst hframes hisDir
  exact h (d ++ [name]) (d' ++ [newname]) (by rw [childPath, hd]; rfl) (by rw [childPath, hd']; rfl)

theorem ends_eq_some {parent newparent : Ino} {name newname : Name} {src dst : Path}
    (hsrc : childPath s parent name = some src) (hdst : childPath s newparent newname = some dst)
    (hthere : existsInRoot src s = true) (hfree : existsInRoot dst s = false) :
    ends s parent name newparent newname = some (src, dst) := by
  simp [ends, hsrc, hdst, hthere, hfree]

theorem rename_stacked {parent newparent : Ino} {name newname : Name}
    (hJ : Stacked J lower s.root)
    (h : ∀ x ∈ writes s (.rename parent name newparent newname), KeptNear J x)
    (hfile : ∀ x ∈ creates s (.rename parent name newparent newname), KeptAt J x)
    (hbelow : RenamesDir s (.rename parent name newparent newname) →
      ∀ x ∈ writes s (.rename parent name newparent newname), KeptBelow J x ∧
        ∀ y m, NoMarker y → IsMarker m → KeptName J (x ++ y ++ [m])) :
    Triple (· = s) (rename parent name newparent newname) (fun _ s' => Stacked J lower s'.root)
      (fun s' => Stacked J lower s'.root) := by
  refine rename_from hJ fun src dst hsrc hdst => ?_
  refine Triple.bind (R := fun _ s' => Stacked J lower s'.root) ?_ fun _ =>
    (Keeps.bind (rebind_keeps _ _) fun _ => Keeps.pure _).triple
  refine Triple.weaken (P := fun s' => s'.root = s.root) (onRoot_rooted (I := (· = s.root))
    (Q := fun _ => Stacked J lower) (E := Stacked J lower) (move_from hJ ?_ ?_))
    (by rintro _ rfl; rfl) (fun _ _ h => h) fun _ h => h
  · intro hisDir hthere hfree
    have hmoved := ends_eq_some hsrc hdst hthere hfree
    have hboth := hbelow ⟨_, _, hmoved, hisDir⟩
    obtain ⟨hbelowSrc, hmarkers⟩ := hboth src (by simp [writes, hmoved])
    exact (moveDir_stacked s.frames hbelowSrc (hboth dst (by simp [writes, hmoved])).1
      hmarkers).weaken (by rintro _ rfl; exact hJ) (fun _ _ h => h) fun _ h => h
  · intro _ hthere hfree
    have hmoved := ends_eq_some hsrc hdst hthere hfree
    exact (moveFile_stacked (h src (by simp [writes, hmoved]))
      ⟨h dst (by simp [writes, hmoved]), hfile dst (by simp [creates, hmoved])⟩).weaken
      (by rintro _ rfl; exact hJ) (fun _ _ h => h) fun _ h => h

/-- Before a link is planted `J` is kept, afterwards `J'`. -/
theorem symlink_stacked {parent : Ino} {name : Name} {target : Target}
    (hJ : Stacked J lower s.root) (hweak : ∀ u, J u → J' u)
    (h : ∀ x ∈ writes s (.symlink parent name target), KeptNear J x)
    (hlink : ∀ x ∈ writes s (.symlink parent name target), ∀ t,
      Triple J (PhysicalFS.symlink t x) (fun _ => J') J') :
    Triple (· = s) (symlink parent name target) (fun _ s' => Stacked J' lower s'.root)
      (fun s' => Stacked J' lower s'.root) := by
  have hkeep : ∀ s' : Fuse υ ℓ, Stacked J lower s'.root → Stacked J' lower s'.root :=
    fun _ h => ⟨hweak _ h.1, h.2⟩
  refine pathOf_from (hkeep _ hJ) fun d hd => join_from (hkeep _ hJ) (from_start hJ ?_)
  have hpath : d ++ [name] ∈ writes s (.symlink parent name target) := by
    simp [writes, childPath, hd]
  have hnear := h _ hpath
  refine Triple.bind ((dropWhiteout_stacked hnear.marker.toKeptName).weaken (fun _ h => h)
    (fun _ _ h => h) hkeep) fun _ => ?_
  refine Triple.bind ((onUpperDir_rooted (createDirAll_kept [] d fun q hq =>
    hnear.upTo q (hq.trans (List.prefix_append _ _)))).weaken (fun _ h => h) (fun _ _ h => h)
    hkeep) fun _ => ?_
  exact Triple.bind (onUpperDir_rooted (hlink _ hpath target)) fun _ =>
    (Keeps.bind internPath_keeps fun _ => Keeps.bind (attrNow_keeps _) fun _ => Keeps.pure _).triple

theorem changeXattr_stacked (applied : Except Errno Unit) (hJ : Stacked J lower s.root)
    (hweak : ∀ u, J u → J' u) (h : ∀ x ∈ copies s ino, KeptFile J x)
    (hmark : ∀ x ∈ copies s ino, KeptName J' (whiteoutPath x))
    (hlink : CopiesLink s ino → ∀ x ∈ copies s ino, ∀ t,
      Triple J (PhysicalFS.symlink t x) (fun _ => J') J') :
    Triple (· = s) (changeXattr ino applied) (fun _ s' => Stacked J' lower s'.root)
      (fun s' => Stacked J' lower s'.root) := by
  refine pathOf_from ⟨hweak _ hJ.1, hJ.2⟩ fun path hpath => ?_
  have hcopies : copied path s.root = true → copies s ino = some path := by
    intro hcopied
    rw [copies, hpath, Option.filter_some, if_pos hcopied]
  refine Triple.bind ((ensureInUpper_stacked (fun hc => h path (hcopies hc)) hweak
    (fun hc => hmark path (hcopies hc)) hJ fun hc m hm hkind =>
      hlink ⟨path, m, hcopies hc, hm, hkind⟩ path (hcopies hc)).weaken
    (by rintro _ rfl; rfl) (fun _ _ h => h) fun _ h => h) fun _ => ?_
  exact (Keeps.bind (Keeps.ask _) fun _ => Keeps.pure _).triple

/-- A path the upper directory has is not copied. -/
theorem ensureInUpper_of_there :
    Triple (fun s : Fuse υ ℓ => Stacked (fun u => (symlinkMetadata u path).isSome ∧ J u) lower s.root)
      (ensureInUpper path) (fun _ s => Stacked J lower s.root) (fun s => Stacked J lower s.root) := by
  refine Triple.of_forall fun s ⟨⟨hthere, hJ⟩, hlower⟩ => ?_
  refine Triple.ask_from ⟨hJ, hlower⟩ fun there h => ?_
  rw [← Except.ok.inj h, if_pos hthere]
  exact Triple.pure () (by rintro _ rfl; exact ⟨hJ, hlower⟩)

theorem setattr_stacked (attrs : SetAttr) (hJ : Stacked J lower s.root)
    (hweak : ∀ u, J u → J' u) (h : ∀ x ∈ writes s (.setattr ino attrs), KeptFile J x)
    (hmark : ∀ x ∈ writes s (.setattr ino attrs), KeptName J' (whiteoutPath x))
    (hlink : PlantsLink s (.setattr ino attrs) → ∀ x ∈ writes s (.setattr ino attrs), ∀ t,
      Triple J (PhysicalFS.symlink t x) (fun _ => J') J') :
    Triple (· = s) (setattr ino attrs) (fun _ s' => Stacked J' lower s'.root)
      (fun s' => Stacked J' lower s'.root) := by
  have hkeep : ∀ s' : Fuse υ ℓ, Stacked J lower s'.root → Stacked J' lower s'.root :=
    fun _ h => ⟨hweak _ h.1, h.2⟩
  refine pathOf_from (hkeep _ hJ) fun path hpath => ?_
  by_cases hsize : attrs.size = some 0
  · -- the truncation puts a regular file at the path, and nothing is copied after it
    have hfile := h path (by simp [writes, hsize, hpath])
    rw [doIf, if_pos (by simpa using hsize)]
    refine from_start hJ (Triple.bind (R := fun _ s' =>
      Stacked (fun u => (symlinkMetadata u path).isSome ∧ J u) lower s'.root) ?_ fun _ => ?_)
    · exact Triple.bind ((onRoot_rooted (vfsCreateFile_stacked hfile)).weaken (fun _ h => h)
        (fun _ _ h => h) hkeep) fun _ => Triple.pure () fun _ h => ⟨h.1.2, h.2⟩
    · have hforget : ∀ s' : Fuse υ ℓ,
          Stacked (fun u => (symlinkMetadata u path).isSome ∧ J u) lower s'.root →
            Stacked J' lower s'.root := fun _ h => ⟨hweak _ h.1.2, h.2⟩
      refine Triple.bind (R := fun _ s' => Stacked J' lower s'.root) ?_ fun _ =>
        (Keeps.bind attrForPath_keeps fun _ => Keeps.pure _).triple
      refine Triple.ite (fun _ => ?_) fun _ => Triple.pure () hforget
      exact Triple.bind (ensureInUpper_of_there.weaken (fun _ h => h) (fun _ => hkeep) hkeep)
        fun _ => (Keeps.ask _).triple
  · rw [doIf, if_neg (by simpa using hsize)]
    refine Triple.bind_from (R := fun _ s' => s' = s) (Triple.pure () fun _ h => h) ?_
    rintro _ s' hs'
    rw [hs']
    refine Triple.bind (R := fun _ s' => Stacked J' lower s'.root) ?_ fun _ =>
      (Keeps.bind attrForPath_keeps fun _ => Keeps.pure _).triple
    refine Triple.ite (fun hneeds => ?_) fun _ => Triple.pure () ?_
    · have hcopies : copied path s.root = true → copies s ino = some path := by
        intro hcopied
        rw [copies, hpath, Option.filter_some, if_pos hcopied]
      have hx : copied path s.root = true → path ∈ writes s (.setattr ino attrs) := by
        intro hcopied
        simp [writes, hsize, hneeds, hcopies hcopied]
      refine Triple.bind ((ensureInUpper_stacked (fun hc => h path (hx hc)) hweak
        (fun hc => hmark path (hx hc)) hJ fun hc m hm hkind =>
          hlink ⟨hsize, hneeds, path, m, hcopies hc, hm, hkind⟩ path (hx hc)).weaken
        (by rintro _ rfl; rfl) (fun _ _ h => h) fun _ h => h) fun _ => (Keeps.ask _).triple
    · rintro _ rfl
      exact hkeep _ hJ

/-! ### Every request -/

/-- What a handler establishes when it returns holds after the reply. -/
theorem next_of_ok {r : Request} {reply : Reply} {Q : Reply → Fuse υ ℓ → Prop} {E : Fuse υ ℓ → Prop}
    (h : Triple (· = s) (step r) Q E) (hok : respond s r = .ok reply) : Q reply (next s r) := by
  unfold respond at hok
  unfold next finalState
  cases hrun : (step r).run s with
  | ok a s' =>
    rw [hrun] at hok
    cases hok
    exact h.ok rfl hrun
  | error e s' =>
    rw [hrun] at hok
    cases hok

/-- What is asked of a condition `J` before a request and of a weaker `J'` after it. -/
structure Survives (J J' : υ → Prop) (s : Fuse υ ℓ) (r : Request) : Prop where
  weaker : ∀ u, J u → J' u
  near : ∀ x ∈ writes s r, KeptNear J x
  file : ∀ x ∈ creates s r, KeptAt J x
  marker : ∀ x ∈ writes s r, KeptName J' (whiteoutPath x)
  below : RenamesDir s r → ∀ x ∈ writes s r, KeptBelow J x ∧
    ∀ y m, NoMarker y → IsMarker m → KeptName J (x ++ y ++ [m])
  link : PlantsLink s r → ∀ x ∈ writes s r, ∀ t,
    Triple J (PhysicalFS.symlink t x) (fun _ => J') J'

/-- What survives the calls a request makes survives the request. -/
theorem step_stacked {r : Request} (h : Survives J J' s r) (hJ : J s.root.upper) :
    Triple (· = s) (step r) (fun _ s' => Stacked J' s.root.lower s'.root)
      (fun s' => Stacked J' s.root.lower s'.root) := by
  have hstart : Stacked J s.root.lower s.root := ⟨hJ, rfl⟩
  have hkeep : ∀ s' : Fuse υ ℓ, Stacked J s.root.lower s'.root → Stacked J' s.root.lower s'.root :=
    fun _ hs => ⟨h.weaker _ hs.1, hs.2⟩
  have hplain : ∀ {x : FuseM υ ℓ Reply}, Triple (· = s) x
      (fun _ s' => Stacked J s.root.lower s'.root) (fun s' => Stacked J s.root.lower s'.root) →
      Triple (· = s) x (fun _ s' => Stacked J' s.root.lower s'.root)
        (fun s' => Stacked J' s.root.lower s'.root) :=
    fun hx => hx.weaken (fun _ h => h) (fun _ => hkeep) hkeep
  have hkeeps : ∀ {x : FuseM υ ℓ Reply}, Keeps root x → Triple (· = s) x
      (fun _ s' => Stacked J' s.root.lower s'.root) (fun s' => Stacked J' s.root.lower s'.root) :=
    fun hx => hplain (from_start hstart hx.triple)
  have hfile : ∀ x ∈ creates s r, KeptFile J x := fun x hx =>
    ⟨h.near x (mem_writes_of_mem_creates hx), h.file x hx⟩
  -- most requests make no call on the upper layer, or one that is described at its handler
  cases r with
  | lookup parent name => exact hkeeps (lookup_keeps _ _)
  | getattr ino => exact hkeeps getattr_keeps
  | setattr ino attrs =>
    exact setattr_stacked attrs hstart h.weaker hfile h.marker h.link
  | readdir ino offset capacity => exact hkeeps (readdir_keeps _ _)
  | mkdir parent name => exact hplain (mkdir_stacked hstart h.near)
  | rmdir parent name => exact hplain (rmdir_stacked hstart h.near)
  | openInode ino flags backed => exact hkeeps (openInode_keeps _ _)
  | read fh offset size => exact hkeeps (read_keeps _ _)
  | write fh offset data => exact hkeeps (write_keeps _ _)
  | release fh => exact hplain (release_stacked hstart hfile)
  | create parent name flags => exact hplain (create_stacked hstart hfile)
  | unlink parent name => exact hplain (unlink_stacked hstart h.near)
  | rename parent name newparent newname => exact hplain (rename_stacked hstart h.near h.file h.below)
  | readlink ino => exact hkeeps readlink_keeps
  | symlink parent name link => exact symlink_stacked hstart h.weaker h.near (h.link trivial)
  | setxattr ino applied | removexattr ino applied =>
    refine changeXattr_stacked applied hstart h.weaker (fun x hx => hfile x ?_)
      (fun x hx => h.marker x ?_) fun hcopies x hx => h.link hcopies x ?_ <;>
      simpa [creates, writes] using hx
  | fsync fh => exact hplain (fsync_stacked hstart hfile)
  | flush => exact hkeeps (Keeps.pure _)

end Fuse

end Rspacefs
