import Rspacefs.Fuse.Backing
import Rspacefs.Lib.Follows
import Rspacefs.Pvc.Swap

/-!
# The daemon after a pivot

`do_pivot_upper` of `rspacefs-fuse/src/control.rs` on a PVC mount that is served: the root
the adapter works through is swapped onto the new upper directory. The adapter has the
layer directories a second time, as a list it was given when it was made, and this list
still begins with the old upper directory. Each handler works on the root, on the list, or
on both.

## Main definitions

* `doPivotUpper` — the control request
* `Pivoted` — the daemon after it: the root over the new upper directory, and the old one
* `Pivoted.step` — the handlers, each part of them on the root or on the list
* `Unnoticed` — a request that does not come across the old directory

## Main results

* `servedByNew` — such a request is served as by a daemon that has the new directory
  everywhere
* `whole_daemon_pivots` — runs of such requests
* `created_not_found` — a request that is not
-/

namespace Rspacefs

open Lib

/-- Why `pivot-upper` is refused. -/
inductive ControlError
  | noPvc
  | preserveOpenFiles
  | notADirectory
  | pivotFailed (e : PvcError)
  deriving DecidableEq, Repr

/-- The daemon of a PVC mount whose upper directory was swapped. -/
structure Pivoted (υ ℓ : Type) where
  /-- The adapter, with the swapped root. -/
  fuse : Fuse υ ℓ
  /-- The directory the adapter's list of layers begins with. -/
  old : υ

variable {υ ℓ : Type}

/-- `do_pivot_upper`: the adapter's root is the merged view of the mount, and its list of
layers stays what it is. -/
def doPivotUpper [FileSystem υ] (pvc : Option (PvcMount υ ℓ)) (s : Fuse υ ℓ) (newUpper : υ)
    (preserveOpenFiles : Bool) : Except ControlError (Pivoted υ ℓ) :=
  match pvc with
  | none => .error .noPvc
  | some m =>
    if !preserveOpenFiles then .error .preserveOpenFiles
    else if unwrapOr false ((·.fileType = .directory) <$> metadata newUpper []) then
      match (PvcMount.pivotUpper newUpper).run m with
      | .ok () m' => .ok ⟨{ s with root := m'.merged }, m'.uppers m.side⟩
      | .error e _ => .error (.pivotFailed e)
    else .error .notADirectory

/-- A pivot gives the root the new directory, as the probe left it, and nothing else. -/
theorem doPivotUpper_eq_ok [FileSystem υ] {f : Fuse υ ℓ} {m : PvcMount υ ℓ} {newUpper : υ}
    {preserve : Bool} {p : Pivoted υ ℓ}
    (h : doPivotUpper (some m) f newUpper preserve = .ok p) :
    ∃ probed, (PvcMount.probe ".rspacefs-pvc-pivot-probe".toList).run newUpper = .ok () probed ∧
      p = ⟨{ f with root := ⟨probed, m.lowers⟩ }, m.merged.upper⟩ := by
  unfold doPivotUpper at h
  simp only at h
  split at h
  · cases h
  split at h
  · split at h
    · rename_i m' hrun
      cases h
      obtain ⟨probed, hprobed, rfl⟩ := PvcMount.pivotUpper_eq_ok hrun
      refine ⟨probed, hprobed, ?_⟩
      simp [PvcMount.merged, PvcMount.rootAt, PvcMount.swap]
    · cases h
  · cases h

/-- A handler of the daemon after the pivot. -/
abbrev PivotedM (υ ℓ α : Type) := EStateM Errno (Pivoted υ ℓ) α

namespace Pivoted

/-- The layers in the adapter's list. -/
def layers (s : Pivoted υ ℓ) : LayerFS υ ℓ := ⟨s.old, s.fuse.root.lower⟩

/-- The part of a handler that works on the root and the tables. -/
def onRoot {α : Type} (x : FuseM υ ℓ α) : PivotedM υ ℓ α :=
  onPart fuse (fun f s => { s with fuse := f }) x

/-- The adapter as the list of layers shows it. -/
def listed (s : Pivoted υ ℓ) : Fuse υ ℓ := { s.fuse with root := s.layers }

/-- Take over what was done through the list. -/
def relist (f : Fuse υ ℓ) (s : Pivoted υ ℓ) : Pivoted υ ℓ :=
  ⟨{ f with root := s.fuse.root }, f.root.upper⟩

/-- The part of a handler that works on the list of layers and the tables. -/
def onLayers {α : Type} (x : FuseM υ ℓ α) : PivotedM υ ℓ α := onPart listed relist x

/-- The daemon after the pivot, around a daemon that has the new directory everywhere. -/
def around (old : υ) (f : Fuse υ ℓ) : Pivoted υ ℓ := ⟨f, old⟩

theorem onRoot_follows {α : Type} {f : Fuse υ ℓ} {old : υ} (y : FuseM υ ℓ α) :
    Follows (around old) Eq (onRoot y) y f :=
  Follows.onPart rfl fun _ => rfl

/-- Asking the list of layers. -/
theorem onLayers_ask {α : Type} (g : Fuse υ ℓ → Except Errno α) :
    onLayers (ask g) = ask fun s : Pivoted υ ℓ => g s.listed := by
  funext s
  change (onLayers (ask g)).run s = (ask _).run s
  rw [onLayers, run_onPart, run_ask, run_ask]
  cases g s.listed <;> rfl

theorem listed_relist {f : Fuse υ ℓ} {s : Pivoted υ ℓ} (h : f.root = s.layers) :
    (relist f s).listed = f := by
  have hlayers : (relist f s).layers = f.root := by
    rw [h]
    change (⟨f.root.upper, s.fuse.root.lower⟩ : LayerFS υ ℓ) = s.layers
    rw [h, layers]
  rw [listed, hlayers]
  rfl

/-- A program that leaves the layers alone, and another after it. -/
theorem onLayers_bind {α β : Type} {x : FuseM υ ℓ α} {k : α → FuseM υ ℓ β}
    (hx : Keeps Fuse.root x) : onLayers (x >>= k) = onLayers x >>= fun a => onLayers (k a) := by
  funext s
  change (onLayers (x >>= k)).run s = (onLayers x >>= fun a => onLayers (k a)).run s
  rw [EStateM.run_bind, onLayers, run_onPart, onLayers, run_onPart, EStateM.run_bind]
  cases hrun : x.run s.listed with
  | error e f => rfl
  | ok a f =>
    have hroot : f.root = s.layers := (hx s.layers).ok rfl hrun
    simp only
    rw [onLayers, run_onPart, listed_relist hroot]
    rfl

/-! ### The path of a request -/

section Path

variable {f f' : Fuse υ ℓ} {ino parent : Ino} {path : Path} {name : Name}

/-- The path a request on a name is about, unless the name is refused. -/
def target (f : Fuse υ ℓ) (parent : Ino) (name : Name) : Option Path :=
  if ValidName name then Fuse.childPath f parent name else none

theorem target_of_run
    (h : (do Fuse.join (← Fuse.pathOf parent) name : FuseM υ ℓ Path).run f = .ok path f') :
    target f parent name = some path ∧ f' = f := by
  obtain ⟨d, f₁, hd, hjoin⟩ := run_bind_eq_ok.mp h
  obtain ⟨hd, rfl⟩ := run_ask_eq_ok.mp hd
  unfold Fuse.join at hjoin
  split at hjoin
  · rename_i hvalid
    cases hjoin
    rw [target, if_pos hvalid, Fuse.childPath]
    cases hino : f'.inodes parent with
    | none => simp [hino] at hd
    | some d' => simpa [hino] using hd
  · cases hjoin

theorem pathOf_of_run
    (h : (Fuse.pathOf ino : FuseM υ ℓ Path).run f = .ok path f') :
    f.inodes ino = some path ∧ f' = f := by
  obtain ⟨hpath, rfl⟩ := run_ask_eq_ok.mp h
  cases hino : f'.inodes ino with
  | none => simp [hino] at hpath
  | some d => simpa [hino] using hpath

/-- Interning a path does not look at the layers. -/
theorem internPath_follows {old : υ} :
    Follows (around old) Eq (onLayers (Fuse.internPath path)) (Fuse.internPath path) f := by
  have hpaths : (around old f).listed.paths path = f.paths path := rfl
  unfold Follows
  rw [Fuse.run_internPath, onLayers, run_onPart, Fuse.run_internPath, hpaths]
  cases f.paths path <;> exact ⟨_, rfl, rfl⟩

end Path

variable [PhysicalFS υ] [PhysicalFS ℓ]

def lookup (parent : Ino) (name : Name) : PivotedM υ ℓ Reply := do
  let path ← onRoot (do Fuse.join (← Fuse.pathOf parent) name)
  onLayers (Fuse.failIf .enoent fun s => (physicalForWithLayer path s.root).isNone)
  let ino ← onRoot (Fuse.internPath path)
  return .entry (← onLayers (Fuse.attrNow ino path .file))

def getattr (ino : Ino) : PivotedM υ ℓ Reply := do
  let path ← onRoot (Fuse.pathOf ino)
  return .attr (← onLayers (Fuse.attrForPath ino path))

def setattr (ino : Ino) (attrs : SetAttr) : PivotedM υ ℓ Reply := do
  let path ← onRoot (Fuse.pathOf ino)
  onRoot (Fuse.doIf (attrs.size = some 0) do
    let _ ← Fuse.onRoot .eio (VfsPath.createFile path))
  onLayers (Fuse.doIf attrs.needsUpper do
    Fuse.ensureInUpper path
    ask fun _ => attrs.applied)
  return .attr (← onLayers (Fuse.attrForPath ino path))

def readdir (ino : Ino) (offset capacity : Nat) : PivotedM υ ℓ Reply := do
  let path ← onRoot (Fuse.pathOf ino)
  let names ← onRoot (Fuse.onRoot .eio (ask fun fs : LayerFS υ ℓ => readDir fs path))
  let parentIno ← onRoot (ask fun s => .ok
    (if ino = Fuse.rootIno then Fuse.rootIno else (s.paths path.dropLast).getD Fuse.rootIno))
  let children ← onLayers (Fuse.listEntries path names)
  let all := (ino, .directory, ".".toList) :: (parentIno, .directory, "..".toList) :: children
  return .directory (((all.mapIdx fun i (ino, kind, name) => ⟨ino, i + 1, kind, name⟩).drop
    offset).take capacity)

def mkdir (parent : Ino) (name : Name) : PivotedM υ ℓ Reply := do
  let path ← onRoot (do Fuse.join (← Fuse.pathOf parent) name)
  onRoot (Fuse.failIf .eexist (Fuse.existsInRoot path))
  onRoot (Fuse.onRoot .eio (VfsPath.createDir path))
  let ino ← onRoot (Fuse.internPath path)
  return .entry (← onLayers (Fuse.attrNow ino path .directory))

def openReadOnly (ino : Ino) (path : Path) (backed : Bool) (fh : Fh) : PivotedM υ ℓ Reply := do
  match ← onLayers (Fuse.openBacking ino path backed) with
  | some backing =>
    onRoot (Fuse.insertFile fh (.passthrough backing))
    return .openedPassthrough fh backing
  | none => onRoot do
    Fuse.failIf .enoent fun s => !Fuse.existsInRoot path s
    let reader ← Fuse.onRoot .eio (ask fun fs : LayerFS υ ℓ => openFile fs path)
    Fuse.insertFile fh (.streaming reader)
    return .opened fh

def openInode (ino : Ino) (flags : OpenFlags) (backed : Bool) : PivotedM υ ℓ Reply := do
  let path ← onRoot (Fuse.pathOf ino)
  let fh ← onRoot Fuse.allocFh
  if flags.writable then onRoot (Fuse.openBuffered path flags fh)
  else openReadOnly ino path backed fh

def create (parent : Ino) (name : Name) (flags : OpenFlags) : PivotedM υ ℓ Reply := do
  let path ← onRoot (do Fuse.join (← Fuse.pathOf parent) name)
  let there ← onRoot (ask fun s => .ok (Fuse.existsInRoot path s))
  onRoot (Fuse.failIf .eexist fun _ => there && flags.excl)
  onRoot (Fuse.doIf (!there || flags.trunc) do
    let _ ← Fuse.onRoot .eio (VfsPath.createFile path))
  let ino ← onRoot (Fuse.internPath path)
  let attr ← onLayers (Fuse.attrNow ino path .file)
  let fh ← onRoot Fuse.allocFh
  onRoot (Fuse.insertFile fh (.buffered path [] false true))
  return .created attr fh

/-- The handler of a request. -/
def step : Request → PivotedM υ ℓ Reply
  | .lookup parent name => lookup parent name
  | .getattr ino => getattr ino
  | .setattr ino attrs => setattr ino attrs
  | .readdir ino offset capacity => readdir ino offset capacity
  | .mkdir parent name => mkdir parent name
  | .openInode ino flags backed => openInode ino flags backed
  | .create parent name flags => create parent name flags
  -- these look at the list of layers only
  | .readlink ino => onLayers (Fuse.readlink ino)
  | .symlink parent name link => onLayers (Fuse.symlink parent name link)
  | .setxattr ino applied => onLayers (Fuse.setxattr ino applied)
  | .removexattr ino applied => onLayers (Fuse.removexattr ino applied)
  -- and these do not look at it
  | r@(.rmdir ..) | r@(.unlink ..) | r@(.rename ..) | r@(.read ..) | r@(.write ..)
  | r@(.release ..) | r@(.fsync ..) | r@.flush => onRoot (Fuse.step r)

/-- The state after a request. -/
def next (s : Pivoted υ ℓ) (r : Request) : Pivoted υ ℓ := finalState (step r) s

/-- The reply to a request. -/
def respond (s : Pivoted υ ℓ) (r : Request) : Except Errno Reply :=
  match (step r).run s with
  | .ok reply _ => .ok reply
  | .error e _ => .error e

/-- The state after a run of requests. -/
def run (s : Pivoted υ ℓ) (rs : List Request) : Pivoted υ ℓ := rs.foldl next s

/-! ### What the list of layers is asked -/

/-- The link at a path in the layer with the given index. -/
def linkIn (path : Path) (fs : LayerFS υ ℓ) : Nat → Option Target
  | 0 => readLink fs.upper path
  | i + 1 => fs.lower[i]?.bind fun layer => readLink layer path

/-- What `readlink` replies for a path. -/
def linkOf (path : Path) (fs : LayerFS υ ℓ) : Option (Option Target) :=
  (physicalForWithLayer path fs).map (linkIn path fs)

/-- The registered backing that another open of the inode shares. -/
def sharedBacking (f : Fuse υ ℓ) (ino : Ino) : Option BackingId :=
  (f.backingCache ino).filter (Fuse.live { f with nextFh := f.nextFh + 1 })

/-- A path is found in the list of layers just if it is found in the layers of the root. -/
def SameFound (s : Pivoted υ ℓ) (path : Path) : Prop :=
  (physicalForWithLayer path s.layers).isSome = (physicalForWithLayer path s.fuse.root).isSome

/-- A read-only open is not served from the old directory: the list and the root find the
path in the same lower layer, or the open goes through the overlay. -/
structure OpensOnNew (s : Pivoted υ ℓ) (ino : Ino) (path : Path) (backed : Bool) : Prop where
  shared : ∀ b, sharedBacking s.fuse ino = some b → b.layer ≠ 0
  served : physicalForWithLayer path s.layers = physicalForWithLayer path s.fuse.root ∧
      physicalForWithLayer path s.layers ≠ some 0 ∨
    sharedBacking s.fuse ino = none ∧ (backed = false ∨ ∀ i,
      physicalForWithLayer path s.layers = some i → s.fuse.verifiedLayers.getD i false = true)

/-- The request does not come across the old directory. -/
def Unnoticed (s : Pivoted υ ℓ) : Request → Prop
  | .lookup parent name => ∀ path, target s.fuse parent name = some path → SameFound s path
  | .getattr ino => ∀ path, s.fuse.inodes ino = some path → SameFound s path
  | .readlink ino => ∀ path, s.fuse.inodes ino = some path →
      linkOf path s.layers = linkOf path s.fuse.root
  | .openInode ino flags backed => flags.writable = false →
      ∀ path, s.fuse.inodes ino = some path → OpensOnNew s ino path backed
  | .setattr ino attrs => attrs.needsUpper = true → ∀ path, s.fuse.inodes ino = some path →
      -- the truncation that comes first fails
      attrs.size = some 0 ∧
        ∃ e f, (Fuse.onRoot .eio (VfsPath.createFile path)).run s.fuse = .error e f
  | .symlink parent name _ => target s.fuse parent name = none
  | .setxattr ino _ | .removexattr ino _ => s.fuse.inodes ino = none
  | _ => True

/-- The same request, where the kernel does not take the file. -/
def unbacked : Request → Request
  | .openInode ino flags _ => .openInode ino flags false
  | r => r

/-- A reply without the attributes in it. -/
def bare : Reply → Reply
  | .entry attr => .entry ⟨attr.ino, 0, .regularFile⟩
  | .attr attr => .attr ⟨attr.ino, 0, .regularFile⟩
  | .created attr fh => .created ⟨attr.ino, 0, .regularFile⟩ fh
  | .directory entries => .directory (entries.map fun e => { e with kind := .regularFile })
  | reply => reply

/-- The daemon that has the new directory everywhere does the same. -/
structure ServedByNew (s : Pivoted υ ℓ) (r r' : Request) : Prop where
  next : s.next r = ⟨Fuse.next s.fuse r', s.old⟩
  reply : (∀ ino attrs, r ≠ .setattr ino attrs) →
    (s.respond r).map bare = (Fuse.respond s.fuse r').map bare
  backing : ∀ ino flags backed fh b, r = .openInode ino flags backed →
    s.respond r = .ok (.openedPassthrough fh b) → b.layer ≠ 0

/-! ### The parts of a handler -/

variable {s : Pivoted υ ℓ} {f : Fuse υ ℓ} {old : υ} {α : Type} {ino parent : Ino} {path : Path}
  {name : Name} {r : Request}

theorem attrNow_follows (ft : VfsFileType) :
    Follows (around old) (fun a b => a.ino = b.ino) (onLayers (Fuse.attrNow ino path ft))
      (Fuse.attrNow ino path ft) f := by
  rw [Fuse.attrNow, onLayers_ask]
  refine Follows.ask (fun b hb => ⟨_, rfl, ?_⟩) nofun
  rw [Except.ok.injEq] at hb
  subst hb
  simp only [Fuse.makeAttr]
  split <;> split <;> rfl

theorem failIf_follows (h : SameFound (around old f) path) :
    Follows (around old) Eq
      (onLayers (Fuse.failIf .enoent fun s => (physicalForWithLayer path s.root).isNone))
      (Fuse.failIf .enoent fun s => (physicalForWithLayer path s.root).isNone) f := by
  rw [Fuse.failIf, onLayers_ask]
  refine Follows.ask_eq ?_
  change (if (physicalForWithLayer path (around old f).layers).isNone then _ else _) = _
  have hnone : (physicalForWithLayer path (around old f).layers).isNone =
      (physicalForWithLayer path f.root).isNone := by
    rw [← Option.not_isSome, ← Option.not_isSome, h]
    rfl
  rw [hnone]

/-! ### The handlers -/

/-- Two replies agree but for the attributes in them. -/
def SameBare (a b : Reply) : Prop := bare a = bare b

theorem lookup_follows (h : Unnoticed (around old f) (.lookup parent name)) :
    Follows (around old) SameBare (lookup parent name) (Fuse.lookup parent name) f := by
  have hassoc : (Fuse.lookup parent name : FuseM υ ℓ Reply) =
      (do Fuse.join (← Fuse.pathOf parent) name) >>= fun path => do
        Fuse.failIf .enoent fun s => (physicalForWithLayer path s.root).isNone
        let ino ← Fuse.internPath path
        return .entry (← Fuse.attrNow ino path .file) := by
    rw [Fuse.lookup, bind_assoc]
  rw [hassoc]
  refine Follows.bind (onRoot_follows _) ?_
  rintro path _ f' hpath rfl
  obtain ⟨htarget, rfl⟩ := target_of_run hpath
  refine Follows.bind (failIf_follows (h path htarget)) ?_
  rintro _ _ f₁ - -
  refine Follows.bind (onRoot_follows _) ?_
  rintro ino _ f₂ - rfl
  refine Follows.bind (attrNow_follows _) ?_
  rintro a b f₃ - hino
  exact Follows.pure (by simp [SameBare, bare, hino])

theorem attrForPath_follows (h : SameFound (around old f) path) :
    Follows (around old) (fun a b => a.ino = b.ino) (onLayers (Fuse.attrForPath ino path))
      (Fuse.attrForPath ino path) f := by
  rw [Fuse.attrForPath, onLayers_bind (Fuse.failIf_keeps _ _)]
  exact Follows.bind (failIf_follows h) fun _ _ _ _ _ => attrNow_follows _

theorem getattr_follows (h : Unnoticed (around old f) (.getattr ino)) :
    Follows (around old) SameBare (getattr ino) (Fuse.getattr ino) f := by
  refine Follows.bind (onRoot_follows _) ?_
  rintro path _ f' hpath rfl
  obtain ⟨hino, rfl⟩ := pathOf_of_run hpath
  refine Follows.bind (attrForPath_follows (h path hino)) ?_
  rintro a b f₁ - hab
  exact Follows.pure (by simp [SameBare, bare, hab])

/-- Listing the entries: only their kinds come from the list of layers. -/
theorem listEntries_follows (names : List Name) :
    Follows (around old)
      (fun a b => a.map (fun e => (e.1, e.2.2)) = b.map fun e => (e.1, e.2.2))
      (onLayers (Fuse.listEntries path names)) (Fuse.listEntries path names) f := by
  induction names generalizing f with
  | nil => exact Follows.pure rfl
  | cons name names ih =>
    rw [Fuse.listEntries, onLayers_bind (Keeps.ask _), onLayers_ask]
    refine Follows.bind (R := fun _ _ => True) (Follows.ask (fun _ _ => ⟨_, rfl, trivial⟩) nofun) ?_
    rintro kind kind' f₁ - -
    rw [onLayers_bind Fuse.internPath_keeps]
    refine Follows.bind internPath_follows ?_
    rintro ino _ f₂ - rfl
    rw [onLayers_bind (Fuse.listEntries_keeps names)]
    refine Follows.bind ih ?_
    rintro rest rest' f₃ - hrest
    exact Follows.pure (by simp [hrest])

theorem readdir_follows (offset capacity : Nat) :
    Follows (around old) SameBare (readdir ino offset capacity)
      (Fuse.readdir ino offset capacity) f := by
  refine Follows.bind (onRoot_follows _) ?_
  rintro path _ f' - rfl
  refine Follows.bind (onRoot_follows _) ?_
  rintro names _ f₁ - rfl
  refine Follows.bind (onRoot_follows _) ?_
  rintro parentIno _ f₂ - rfl
  refine Follows.bind (listEntries_follows names) ?_
  rintro children children' f₃ - hchildren
  -- without the kinds an entry of the reply is a number, an offset and a name
  have hshape : ∀ (g : Nat → Ino × FileKind × Name → DirEntry) (l : List (Ino × FileKind × Name)),
      (∀ i e, { g i e with kind := .regularFile } = ⟨e.1, i + 1, .regularFile, e.2.2⟩) →
      (l.mapIdx g).map (fun e => { e with kind := .regularFile }) =
        (l.map fun e => (e.1, e.2.2)).mapIdx fun i e => ⟨e.1, i + 1, .regularFile, e.2⟩ := by
    intro g l hg
    apply List.ext_getElem?
    intro i
    rw [List.getElem?_map, List.getElem?_mapIdx, List.getElem?_mapIdx, List.getElem?_map]
    cases l[i]? with
    | none => rfl
    | some e => exact congrArg some (hg i e)
  refine Follows.pure ?_
  simp only [SameBare, bare, List.map_take, List.map_drop]
  rw [hshape _ _ fun _ _ => rfl, hshape _ _ fun _ _ => rfl]
  simp only [List.map_cons, hchildren]

/-- The creation of a directory does not depend on the list. -/
theorem mkdir_follows :
    Follows (around old) SameBare (mkdir parent name) (Fuse.mkdir parent name) f := by
  have hassoc : (Fuse.mkdir parent name : FuseM υ ℓ Reply) =
      (do Fuse.join (← Fuse.pathOf parent) name) >>= fun path => do
        Fuse.failIf .eexist (Fuse.existsInRoot path)
        Fuse.onRoot .eio (VfsPath.createDir path)
        let ino ← Fuse.internPath path
        return .entry (← Fuse.attrNow ino path .directory) := by
    rw [Fuse.mkdir, bind_assoc]
  rw [hassoc]
  refine Follows.bind (onRoot_follows _) ?_
  rintro path _ f' - rfl
  refine Follows.bind (onRoot_follows _) ?_
  rintro _ _ f₁ - -
  refine Follows.bind (onRoot_follows _) ?_
  rintro _ _ f₂ - -
  refine Follows.bind (onRoot_follows _) ?_
  rintro ino _ f₃ - rfl
  refine Follows.bind (attrNow_follows _) ?_
  rintro a b f₄ - hino
  exact Follows.pure (by simp [SameBare, bare, hino])

theorem create_follows (flags : OpenFlags) :
    Follows (around old) SameBare (create parent name flags) (Fuse.create parent name flags) f := by
  have hassoc : (Fuse.create parent name flags : FuseM υ ℓ Reply) =
      (do Fuse.join (← Fuse.pathOf parent) name) >>= fun path => do
        let there ← ask fun s => .ok (Fuse.existsInRoot path s)
        Fuse.failIf .eexist fun _ => there && flags.excl
        Fuse.doIf (!there || flags.trunc) do
          let _ ← Fuse.onRoot .eio (VfsPath.createFile path)
        let ino ← Fuse.internPath path
        let attr ← Fuse.attrNow ino path .file
        let fh ← Fuse.allocFh
        Fuse.insertFile fh (.buffered path [] false true)
        return .created attr fh := by
    rw [Fuse.create, bind_assoc]
  -- every step is followed; only the attributes need not be the same, but are so up to `bare`
  rw [hassoc]
  refine Follows.bind (onRoot_follows _) ?_
  rintro path _ f' - rfl
  refine Follows.bind (onRoot_follows _) ?_
  rintro there _ f₁ - rfl
  refine Follows.bind (onRoot_follows _) ?_
  rintro _ _ f₂ - -
  refine Follows.bind (onRoot_follows _) ?_
  rintro _ _ f₃ - -
  refine Follows.bind (onRoot_follows _) ?_
  rintro ino _ f₄ - rfl
  refine Follows.bind (attrNow_follows _) ?_
  rintro attr attr' f₅ - hino
  refine Follows.bind (onRoot_follows _) ?_
  rintro fh _ f₆ - rfl
  refine Follows.bind (onRoot_follows _) ?_
  rintro _ _ f₇ - -
  exact Follows.pure (by simp [SameBare, bare, hino])

/-- The reply to `readlink`, from what stands at the path. -/
def linkReply : Option (Option Target) → Except Errno Reply
  | none => .error .enoent
  | some none => .error .host
  | some (some link) => .ok (.target link)

theorem readlink_eq : (Fuse.readlink ino : FuseM υ ℓ Reply) =
    Fuse.pathOf ino >>= fun path => ask fun s => linkReply (linkOf path s.root) := by
  rw [Fuse.readlink]
  refine congrArg _ (funext fun path => congrArg ask (funext fun s => ?_))
  rw [linkOf]
  cases physicalForWithLayer path s.root with
  | none => rfl
  | some i =>
    rw [Option.map_some]
    cases i with
    | zero =>
      simp only [linkIn]
      cases readLink s.root.upper path <;> rfl
    | succ i =>
      simp only [linkIn]
      cases s.root.lower[i]?.bind fun layer => readLink layer path <;> rfl

theorem readlink_follows (h : Unnoticed (around old f) (.readlink ino)) :
    Follows (around old) SameBare (onLayers (Fuse.readlink ino)) (Fuse.readlink ino) f := by
  rw [readlink_eq, onLayers_bind Fuse.pathOf_keeps, Fuse.pathOf, onLayers_ask]
  refine Follows.bind (Follows.ask_eq rfl) ?_
  rintro path _ f' hpath rfl
  obtain ⟨hino, rfl⟩ := pathOf_of_run hpath
  rw [onLayers_ask]
  refine (Follows.ask_eq ?_).mono fun a b hab => congrArg bare hab
  have hlink : linkOf path (around old f').listed.root = linkOf path f'.root := h path hino
  rw [hlink]

/-- A name that is refused is refused at once. -/
theorem symlink_follows (link : Target) (h : Unnoticed (around old f) (.symlink parent name link)) :
    Follows (around old) SameBare (onLayers (Fuse.symlink parent name link))
      (Fuse.symlink parent name link) f := by
  have hrefused : ∃ e, ∀ g : Fuse υ ℓ, g.inodes = f.inodes →
      (Fuse.symlink parent name link).run g = .error e g := by
    have htarget : target f parent name = none := h
    cases hparent : f.inodes parent with
    | none =>
      refine ⟨.enoent, fun g hg => ?_⟩
      rw [Fuse.symlink, EStateM.run_bind, Fuse.pathOf, run_ask, hg, hparent]
    | some d =>
      have hinvalid : ¬ ValidName name := by
        intro hvalid
        simp [target, hvalid, Fuse.childPath, hparent] at htarget
      refine ⟨.einval, fun g hg => ?_⟩
      rw [Fuse.symlink, EStateM.run_bind, Fuse.pathOf, run_ask, hg, hparent]
      simp only
      rw [EStateM.run_bind, Fuse.join, if_neg hinvalid]
      rfl
  obtain ⟨e, he⟩ := hrefused
  refine Follows.of_error (he f rfl) ?_
  rw [onLayers, run_onPart, he (around old f).listed rfl]
  rfl

theorem changeXattr_follows (applied : Except Errno Unit) (h : f.inodes ino = none) :
    Follows (around old) SameBare (onLayers (Fuse.changeXattr ino applied))
      (Fuse.changeXattr ino applied) f := by
  have hrefused : ∀ g : Fuse υ ℓ, g.inodes = f.inodes →
      (Fuse.changeXattr ino applied).run g = .error .enoent g := by
    intro g hg
    rw [Fuse.changeXattr, EStateM.run_bind, Fuse.pathOf, run_ask, hg, h]
  refine Follows.of_error (hrefused f rfl) ?_
  rw [onLayers, run_onPart, hrefused (around old f).listed rfl]
  rfl

theorem attrForPath_keeps : Keeps id (onLayers (Fuse.attrForPath ino path) : PivotedM υ ℓ _) := by
  rw [Fuse.attrForPath, onLayers_bind (Fuse.failIf_keeps _ _), Fuse.failIf, onLayers_ask]
  refine Keeps.bind (Keeps.ask _) fun _ => ?_
  rw [Fuse.attrNow, onLayers_ask]
  exact Keeps.ask _

/-- Truncation goes through the root; the attributes that are set do not get that far. -/
theorem next_setattr (attrs : SetAttr) (h : Unnoticed (around old f) (.setattr ino attrs)) :
    next (around old f) (.setattr ino attrs) = around old (Fuse.next f (.setattr ino attrs)) := by
  change finalState (setattr ino attrs) (around old f) =
    around old (finalState (Fuse.setattr ino attrs) f)
  refine (onRoot_follows _).finalState_bind ?_
  rintro path _ f' hpath rfl
  obtain ⟨hino, rfl⟩ := pathOf_of_run hpath
  refine (onRoot_follows _).finalState_bind ?_
  rintro _ _ f₂ htrunc -
  have hneeds : attrs.needsUpper = false := by
    rw [← Bool.not_eq_true]
    intro hneeds
    obtain ⟨hsize, e, f₃, hfail⟩ := h hneeds path hino
    change (Fuse.onRoot .eio (VfsPath.createFile path)).run f' = _ at hfail
    rw [Fuse.doIf, if_pos (by simp [hsize]), EStateM.run_bind, hfail] at htrunc
    cases htrunc
  rw [hneeds]
  -- what is left only asks for the attributes
  refine (Keeps.finalState (g := id) ?_ _).trans (congrArg (around old) ?_)
  · refine Keeps.bind (Keeps.pure ()) fun _ => Keeps.bind attrForPath_keeps fun _ => Keeps.pure _
  · exact (Keeps.finalState (g := id) (Keeps.bind (Keeps.pure ()) fun _ =>
      Keeps.bind Fuse.attrForPath_keeps fun _ => Keeps.pure _) _).symm

/-! ### Opening -/

theorem openBacking_none {backed : Bool} (hshared : (f.backingCache ino).filter f.live = none)
    (h : backed = false ∨ ∀ i, physicalForWithLayer path f.root = some i →
      f.verifiedLayers.getD i false = true) :
    (Fuse.openBacking ino path backed).run f = .ok none f := by
  rw [Fuse.run_openBacking, hshared]
  cases hlayer : physicalForWithLayer path f.root with
  | none => rfl
  | some i =>
    simp only
    split
    · rfl
    · rename_i hverified
      have hbacked : backed = false := h.resolve_right fun hv => hverified (hv i hlayer)
      rw [hbacked]
      rfl

/-- A backing file is shared, or registered in the layer where the path is found. -/
theorem openBacking_some {backed : Bool} {b : BackingId} {f' : Fuse υ ℓ}
    (h : (Fuse.openBacking ino path backed).run f = .ok (some b) f') :
    (f.backingCache ino).filter f.live = some b ∨
      physicalForWithLayer path f.root = some b.layer := by
  rw [Fuse.run_openBacking] at h
  cases hlayer : physicalForWithLayer path f.root with
  | none =>
    rw [hlayer] at h
    cases h
  | some i =>
    rw [hlayer] at h
    simp only at h
    split at h
    · cases h
    · cases hshared : (f.backingCache ino).filter f.live with
      | some shared =>
        rw [hshared] at h
        cases h
        exact Or.inl rfl
      | none =>
        rw [hshared] at h
        cases backed <;> cases h
        exact Or.inr rfl

theorem openBacking_follows {backed : Bool}
    (h : physicalForWithLayer path (around old f).layers = physicalForWithLayer path f.root) :
    Follows (around old) Eq (onLayers (Fuse.openBacking ino path backed))
      (Fuse.openBacking ino path backed) f := by
  have hlayer : physicalForWithLayer path (around old f).listed.root =
      physicalForWithLayer path f.root := h
  have hverified : (around old f).listed.verifiedLayers = f.verifiedLayers := rfl
  have hshared : ((around old f).listed.backingCache ino).filter (around old f).listed.live =
      (f.backingCache ino).filter f.live := rfl
  unfold Follows
  rw [onLayers, run_onPart, Fuse.run_openBacking, Fuse.run_openBacking, hlayer, hverified, hshared]
  cases physicalForWithLayer path f.root with
  | none => exact ⟨_, rfl, rfl⟩
  | some layer =>
    simp only
    cases f.verifiedLayers.getD layer false with
    | true => exact ⟨_, rfl, rfl⟩
    | false =>
      cases (f.backingCache ino).filter f.live with
      | some backing => exact ⟨_, rfl, rfl⟩
      | none => cases backed <;> exact ⟨_, rfl, rfl⟩

/-- Where the list and the root find the path in the same layer, the open is the same. -/
theorem openReadOnly_follows {backed : Bool} {fh : Fh}
    (h : physicalForWithLayer path (around old f).layers = physicalForWithLayer path f.root) :
    Follows (around old) Eq (openReadOnly ino path backed fh)
      (Fuse.openReadOnly ino path backed fh) f := by
  refine Follows.bind (openBacking_follows h) ?_
  rintro backing _ f' - rfl
  cases backing with
  | some backing =>
    refine Follows.bind (onRoot_follows _) ?_
    rintro _ _ f₁ - -
    exact Follows.pure rfl
  | none => exact onRoot_follows _

/-- Without a backing file from the list, the open goes through the overlay. -/
theorem openReadOnly_follows_unbacked {backed : Bool} {fh : Fh}
    (hshared : (f.backingCache ino).filter f.live = none)
    (h : backed = false ∨ ∀ i, physicalForWithLayer path (around old f).layers = some i →
      f.verifiedLayers.getD i false = true) :
    Follows (around old) Eq (openReadOnly ino path backed fh)
      (Fuse.openReadOnly ino path false fh) f := by
  have hlist : (Fuse.openBacking ino path backed).run (around old f).listed =
      .ok none (around old f).listed := openBacking_none hshared h
  have hroot : (Fuse.openBacking ino path false).run f = .ok none f :=
    openBacking_none hshared (Or.inl rfl)
  refine Follows.bind (R := fun a b => a = none ∧ b = none) ?_ ?_
  · unfold Follows
    rw [hroot, onLayers, run_onPart, hlist]
    exact ⟨none, rfl, rfl, rfl⟩
  · rintro _ _ f' - ⟨rfl, rfl⟩
    exact onRoot_follows _

theorem openReadOnly_backing {backed : Bool} {fh fh' : Fh} {b : BackingId} {s s' : Pivoted υ ℓ}
    (h : (openReadOnly ino path backed fh).run s = .ok (.openedPassthrough fh' b) s') :
    ∃ f', (Fuse.openBacking ino path backed).run s.listed = .ok (some b) f' := by
  obtain ⟨backing, s₁, hbacking, hrest⟩ := run_bind_eq_ok.mp h
  obtain ⟨f', hrun, rfl⟩ := run_onPart_eq_ok.mp hbacking
  cases backing with
  | some backing =>
    obtain ⟨_, s₂, -, hpure⟩ := run_bind_eq_ok.mp hrest
    cases hpure
    exact ⟨f', hrun⟩
  | none =>
    obtain ⟨f₁, hrest, -⟩ := run_onPart_eq_ok.mp hrest
    obtain ⟨_, f₂, -, hrest⟩ := run_bind_eq_ok.mp hrest
    obtain ⟨_, f₃, -, hrest⟩ := run_bind_eq_ok.mp hrest
    obtain ⟨_, f₄, -, hrest⟩ := run_bind_eq_ok.mp hrest
    cases hrest

/-- An open that the old directory does not serve is an open of the daemon that has the new
directory everywhere. -/
theorem openInode_follows {flags : OpenFlags} {backed : Bool}
    (h : Unnoticed (around old f) (.openInode ino flags backed)) :
    ∃ backed', (backed' = backed ∨ backed' = false) ∧
      Follows (around old) Eq (openInode ino flags backed) (Fuse.openInode ino flags backed') f := by
  cases hino : f.inodes ino with
  | none =>
    -- an unknown inode is answered at once
    refine ⟨backed, Or.inl rfl, Follows.bind (onRoot_follows _) ?_⟩
    rintro path _ f' hpath rfl
    obtain ⟨hsome, rfl⟩ := pathOf_of_run hpath
    rw [hino] at hsome
    cases hsome
  | some path =>
    have hopen : ∀ backed', (flags.writable = false → ∀ fh, Follows (around old) Eq
        (openReadOnly ino path backed fh) (Fuse.openReadOnly ino path backed' fh)
          { f with nextFh := f.nextFh + 1 }) →
        Follows (around old) Eq (openInode ino flags backed)
          (Fuse.openInode ino flags backed') f := by
      intro backed' hread
      refine Follows.bind (onRoot_follows _) ?_
      rintro path' _ f' hpath rfl
      obtain ⟨hsome, rfl⟩ := pathOf_of_run hpath
      rw [hino] at hsome
      cases hsome
      refine Follows.bind (onRoot_follows _) ?_
      rintro fh _ f₁ hfh rfl
      cases hfh
      refine Follows.ite (fun _ => onRoot_follows _) fun hwritable => ?_
      exact hread (by simpa using hwritable) f'.nextFh
    by_cases hwritable : flags.writable = true
    · exact ⟨backed, Or.inl rfl, hopen backed fun hread => by simp [hwritable] at hread⟩
    · rcases (h (by simpa using hwritable) path hino).served with ⟨hsame, -⟩ | ⟨hshared, hlist⟩
      · exact ⟨backed, Or.inl rfl, hopen backed fun _ fh => openReadOnly_follows hsame⟩
      · exact ⟨false, Or.inr rfl, hopen false fun _ fh =>
          openReadOnly_follows_unbacked hshared hlist⟩

/-- The kernel is not given a file of the old directory. -/
theorem openInode_backing {flags : OpenFlags} {backed : Bool} {fh : Fh} {b : BackingId}
    {s' : Pivoted υ ℓ} (h : Unnoticed s (.openInode ino flags backed))
    (hrun : (openInode ino flags backed).run s = .ok (.openedPassthrough fh b) s') :
    b.layer ≠ 0 := by
  obtain ⟨path, s₁, hroot, hrest⟩ := run_bind_eq_ok.mp hrun
  obtain ⟨f₁, hpath, rfl⟩ := run_onPart_eq_ok.mp hroot
  obtain ⟨hino, rfl⟩ := pathOf_of_run hpath
  obtain ⟨fh', s₂, hfh, hrest⟩ := run_bind_eq_ok.mp hrest
  cases hfh
  split at hrest
  · -- a handle for writing has its buffer
    obtain ⟨f₂, hbuffered, -⟩ := run_onPart_eq_ok.mp hrest
    obtain ⟨_, f₃, -, hbuffered⟩ := run_bind_eq_ok.mp hbuffered
    obtain ⟨_, f₄, -, hbuffered⟩ := run_bind_eq_ok.mp hbuffered
    obtain ⟨_, f₅, -, hbuffered⟩ := run_bind_eq_ok.mp hbuffered
    cases hbuffered
  · rename_i hwritable
    have hopens := h (by simpa using hwritable) path hino
    obtain ⟨f₂, hbacking⟩ := openReadOnly_backing hrest
    rcases openBacking_some hbacking with hshared | hlayer
    · exact hopens.shared b hshared
    · intro hzero
      rcases hopens.served with ⟨-, hne⟩ | ⟨hshared, hlist⟩
      · exact hne (hlayer.trans (congrArg some hzero))
      · cases hbacking.symm.trans (openBacking_none hshared hlist)

/-! ### Requests and runs -/

theorem respond_of_follows {r r' : Request}
    (h : Follows (around old) SameBare (step r) (Fuse.step r') f) :
    (respond (around old f) r).map bare = (Fuse.respond f r').map bare := by
  unfold Follows at h
  rw [respond, Fuse.respond]
  cases hrun : (Fuse.step r').run f with
  | error e f' =>
    rw [hrun] at h
    simp only at h
    rw [h]
  | ok reply f' =>
    rw [hrun] at h
    obtain ⟨a, ha, hbare⟩ := h
    rw [ha]
    exact congrArg Except.ok hbare

theorem ServedByNew.of_follows {r r' : Request}
    (h : Follows (around old) SameBare (step r) (Fuse.step r') f)
    (hr : ∀ ino flags backed, r ≠ .openInode ino flags backed) :
    ServedByNew (around old f) r r' where
  next := h.finalState
  reply _ := respond_of_follows h
  backing ino flags backed _ _ he := absurd he (hr ino flags backed)

/-- A request that does not come across the old directory is served by the new one. -/
theorem servedByNew (h : Unnoticed s r) : ∃ r', (r' = r ∨ r' = unbacked r) ∧ ServedByNew s r r' := by
  obtain ⟨f, old⟩ := s
  change ∃ r', _ ∧ ServedByNew (around old f) r r'
  have hsame (hfollows : Follows (around old) SameBare (step r) (Fuse.step r) f)
      (hr : ∀ ino flags backed, r ≠ .openInode ino flags backed) :
      ∃ r', (r' = r ∨ r' = unbacked r) ∧ ServedByNew (around old f) r r' :=
    ⟨r, Or.inl rfl, ServedByNew.of_follows hfollows hr⟩
  -- what `setattr` and `open` do outside the directory is not followed, so these two are apart
  cases r with
  | lookup parent name => exact hsame (lookup_follows h) nofun
  | getattr ino => exact hsame (getattr_follows h) nofun
  | readdir ino offset capacity => exact hsame (readdir_follows offset capacity) nofun
  | mkdir parent name => exact hsame mkdir_follows nofun
  | create parent name flags => exact hsame (create_follows flags) nofun
  | readlink ino => exact hsame (readlink_follows h) nofun
  | symlink parent name link => exact hsame (symlink_follows link h) nofun
  | setxattr ino applied => exact hsame (changeXattr_follows applied h) nofun
  | removexattr ino applied => exact hsame (changeXattr_follows applied h) nofun
  | setattr ino attrs =>
    exact ⟨_, Or.inl rfl, next_setattr attrs h, fun hne => absurd rfl (hne ino attrs), nofun⟩
  | openInode ino flags backed =>
    obtain ⟨backed', hbacked, hfollows⟩ := openInode_follows h
    refine ⟨.openInode ino flags backed', ?_, hfollows.finalState,
      fun _ => respond_of_follows (hfollows.mono fun a b (hab : a = b) => congrArg bare hab), ?_⟩
    · rcases hbacked with rfl | rfl
      · exact Or.inl rfl
      · exact Or.inr rfl
    · rintro ino' flags' backed'' fh b he hreply
      cases he
      rw [respond] at hreply
      split at hreply
      · cases hreply
        exact openInode_backing h ‹_›
      · cases hreply
  | rmdir _ _ | unlink _ _ | rename _ _ _ _ | read _ _ _ | write _ _ _ | release _ | fsync _ | flush =>
    exact hsame ((onRoot_follows _).mono fun a b (hab : a = b) => congrArg bare hab) nofun

/-- What one request does to the directories. -/
theorem next_of_unnoticed (h : Unnoticed s r) :
    (s.next r).old = s.old ∧ (s.next r).fuse.lowers = s.fuse.lowers := by
  obtain ⟨r', -, hserved⟩ := servedByNew h
  rw [hserved.next]
  exact ⟨rfl, (Fuse.step_lowers r').finalState s.fuse⟩

theorem run_of_unnoticed {rs : List Request} (h : EachStep next Unnoticed s rs) :
    (run s rs).old = s.old ∧ (run s rs).fuse.lowers = s.fuse.lowers := by
  refine h.invariant (I := fun t => t.old = s.old ∧ t.fuse.lowers = s.fuse.lowers) ?_ ⟨rfl, rfl⟩
  rintro t r ⟨hold, hlowers⟩ hr
  obtain ⟨hold', hlowers'⟩ := next_of_unnoticed hr
  exact ⟨hold'.trans hold, hlowers'.trans hlowers⟩

/-- A lookup of what the side-channel finds succeeds. -/
theorem respond_lookup (htarget : target f parent name = some path)
    (hfound : (physicalForWithLayer path f.root).isSome) :
    ∃ attr, Fuse.respond f (.lookup parent name) = .ok (.entry attr) := by
  unfold target at htarget
  split at htarget
  · rename_i hvalid
    obtain ⟨d, hd, rfl⟩ := Option.map_eq_some_iff.mp htarget
    have hpath : (Fuse.pathOf parent : FuseM υ ℓ Path).run f = .ok d f :=
      run_ask_eq_ok.mpr ⟨by rw [hd], rfl⟩
    have hjoin : (Fuse.join d name : FuseM υ ℓ Path).run f = .ok (d ++ [name]) f := by
      rw [Fuse.join, if_pos hvalid]
      rfl
    have hthere : (Fuse.failIf .enoent fun s : Fuse υ ℓ =>
        (physicalForWithLayer (d ++ [name]) s.root).isNone).run f = .ok () f := by
      refine run_ask_eq_ok.mpr ⟨if_neg ?_, rfl⟩
      change ¬ (physicalForWithLayer (d ++ [name]) f.root).isNone = true
      rw [← Option.not_isSome, hfound]
      simp
    -- numbering the path leaves the layers, so the attributes are those of what was found
    obtain ⟨ino, f', hino⟩ : ∃ ino f',
        (Fuse.internPath (d ++ [name]) : FuseM υ ℓ Ino).run f = .ok ino f' := by
      rw [Fuse.run_internPath]
      split <;> exact ⟨_, _, rfl⟩
    refine ⟨Fuse.makeAttr ino (d ++ [name]) .file 0 f'.root, ?_⟩
    have hrun : (Fuse.step (.lookup parent name)).run f =
        .ok (.entry (Fuse.makeAttr ino (d ++ [name]) .file 0 f'.root)) f' :=
      run_bind_eq_ok.mpr ⟨d, f, hpath, run_bind_eq_ok.mpr ⟨_, f, hjoin, run_bind_eq_ok.mpr
        ⟨(), f, hthere, run_bind_eq_ok.mpr ⟨ino, f', hino, rfl⟩⟩⟩⟩
    rw [Fuse.respond, hrun]
  · cases htarget

/-- The request makes an entry under this name. -/
def Makes (parent : Ino) (name : Name) (r : Request) : Prop :=
  r = .mkdir parent name ∨ ∃ flags, r = .create parent name flags

theorem eq_ok_of_map {g : Reply → Reply} {x y : Except Errno Reply}
    (h : x.map g = y.map g) {a : Reply} (hx : x = .ok a) : ∃ b, y = .ok b ∧ g a = g b := by
  subst hx
  cases y with
  | error e => cases h
  | ok b => exact ⟨b, rfl, Except.ok.inj h⟩

section Made

variable [LocalPhysicalFS υ]

/-- What is written back is in the new directory, and shown. -/
theorem shown_of_released (h : Unnoticed s (.release fh)) {data : Bytes} {w : Bool}
    (hne : path ≠ []) (hlinks : NoLinks path s.fuse.root.upper)
    (hfile : s.fuse.openFiles fh = some (.buffered path data true w)) {reply : Reply}
    (hok : s.respond (.release fh) = .ok reply) :
    Fuse.Shown (s.next (.release fh)).fuse path data := by
  obtain ⟨r', hr', hserved⟩ := servedByNew h
  have hsame : r' = .release fh := by rcases hr' with rfl | rfl <;> rfl
  subst hsame
  rw [hserved.next]
  obtain ⟨b, hb, -⟩ := eq_ok_of_map (hserved.reply nofun) hok
  exact Fuse.next_of_ok (Fuse.release_written hne hlinks hfile) hb

variable [MakesEntries υ] [LawfulPhysicalFS ℓ]

/-- What is made is found, by the lookup that comes next. -/
theorem lookup_of_made (h : Unnoticed s r) (hmakes : Makes parent name r)
    (hpath : Fuse.childPath s.fuse parent name = some path)
    (hlinks : NoLinks path s.fuse.root.upper) {reply : Reply} (hok : s.respond r = .ok reply)
    {parent' : Ino} {name' : Name} (htarget : target (s.next r).fuse parent' name' = some path)
    (h' : Unnoticed (s.next r) (.lookup parent' name')) :
    ∃ attr, (s.next r).respond (.lookup parent' name') = .ok (.entry attr) := by
  obtain ⟨r', hr', hserved⟩ := servedByNew h
  have hfound : (physicalForWithLayer path (s.next r).fuse.root).isSome := by
    rw [hserved.next]
    rcases hmakes with rfl | ⟨flags, rfl⟩
    · have hsame : r' = .mkdir parent name := by rcases hr' with rfl | rfl <;> rfl
      subst hsame
      obtain ⟨b, hb, -⟩ := eq_ok_of_map (hserved.reply nofun) hok
      exact Fuse.next_of_ok (Fuse.mkdir_found hpath hlinks) hb
    · have hsame : r' = .create parent name flags := by rcases hr' with rfl | rfl <;> rfl
      subst hsame
      obtain ⟨b, hb, -⟩ := eq_ok_of_map (hserved.reply nofun) hok
      exact Fuse.next_of_ok (Fuse.create_found hpath hlinks) hb
  obtain ⟨attr, hattr⟩ := respond_lookup htarget hfound
  obtain ⟨r'', hr'', hserved'⟩ := servedByNew h'
  have hsame : r'' = .lookup parent' name' := by rcases hr'' with rfl | rfl <;> rfl
  subst hsame
  obtain ⟨b, hb, hbare⟩ := eq_ok_of_map (hserved'.reply nofun).symm hattr
  cases b with
  | entry attr' => exact ⟨attr', hb⟩
  | _ => cases hbare

/-- After a pivot, as long as no request comes across the old directory, each is served as
by a daemon that has the new directory everywhere, and the old one stays as it was. What is
made is found by the next lookup, and what is written back is shown. -/
theorem whole_daemon_pivots (s : Fuse υ ℓ) (m : PvcMount υ ℓ) (newUpper : υ) (preserve : Bool)
    (p : Pivoted υ ℓ) (rs : List Request) (hroot : s.root = m.merged)
    (hpivot : doPivotUpper (some m) s newUpper preserve = .ok p)
    (hrs : EachStep next Unnoticed p rs) :
    (∃ probed, (PvcMount.probe ".rspacefs-pvc-pivot-probe".toList).run newUpper = .ok () probed ∧
      p.fuse = { s with root := ⟨probed, s.root.lower⟩ }) ∧
    (run p rs).old = s.root.upper ∧ (run p rs).fuse.lowers = s.lowers ∧
    (∀ rs₁ r rs₂, rs = rs₁ ++ r :: rs₂ →
      ∃ r', (r' = r ∨ r' = unbacked r) ∧ ServedByNew (run p rs₁) r r') ∧
    (∀ rs₁ r parent' name' rs₂ parent name path reply,
      rs = rs₁ ++ r :: .lookup parent' name' :: rs₂ → Makes parent name r →
      Fuse.childPath (run p rs₁).fuse parent name = some path →
      NoLinks path (run p rs₁).fuse.root.upper → (run p rs₁).respond r = .ok reply →
      target ((run p rs₁).next r).fuse parent' name' = some path →
      ∃ attr, ((run p rs₁).next r).respond (.lookup parent' name') = .ok (.entry attr)) ∧
    ∀ rs₁ fh rs₂ path data w reply, rs = rs₁ ++ .release fh :: rs₂ → path ≠ [] →
      (run p rs₁).fuse.openFiles fh = some (.buffered path data true w) →
      NoLinks path (run p rs₁).fuse.root.upper →
      (run p rs₁).respond (.release fh) = .ok reply →
      Fuse.Shown ((run p rs₁).next (.release fh)).fuse path data := by
  obtain ⟨probed, hprobed, rfl⟩ := doPivotUpper_eq_ok hpivot
  have hlower : m.lowers = s.root.lower := by
    rw [hroot]
    rfl
  obtain ⟨hold, hlowers⟩ := run_of_unnoticed hrs
  refine ⟨⟨probed, hprobed, by rw [hlower]⟩, ?_, ?_, ?_, ?_, ?_⟩
  · rw [hold, hroot]
  · rw [hlowers]
    exact hlower
  · rintro rs₁ r rs₂ rfl
    exact servedByNew (eachStep_append.mp hrs).2.1
  · rintro rs₁ r parent' name' rs₂ parent name path reply rfl hmakes hpath hlinks hok htarget
    have hrest := (eachStep_append.mp hrs).2
    exact lookup_of_made hrest.1 hmakes hpath hlinks hok htarget hrest.2.1
  · rintro rs₁ fh rs₂ path data w reply rfl hne hfile hlinks hok
    exact shown_of_released (eachStep_append.mp hrs).2.1 hne hlinks hfile hok

end Made

/-! ### A mount that is pivoted -/

/-- The daemon of a mount with one file. -/
def served : Fuse Tree Tree := Fuse.new fileMount.merged [false] 8

/-- The daemon after a pivot to a copy of the upper directory. -/
def copied : Pivoted Tree Tree :=
  match doPivotUpper (some fileMount) served served.root.upper true with
  | .ok p => p
  | .error _ => ⟨served, served.root.upper⟩

theorem doPivotUpper_copied :
    doPivotUpper (some fileMount) served served.root.upper true = .ok copied := by
  have hok : (doPivotUpper (some fileMount) served served.root.upper true).toOption.isSome := by
    decide +kernel
  rw [copied]
  cases hpivot : doPivotUpper (some fileMount) served served.root.upper true with
  | ok p => rfl
  | error e => simp [hpivot, Except.toOption] at hok

/-- A new file is written and closed, and then opened for reading. -/
def writeAndRead : List Request :=
  [.create 1 "g".toList ⟨.writeOnly, false, true⟩, .write 1 0 [7], .release 1,
    .openInode 2 ⟨.readOnly, false, false⟩ true, .read 2 0 8]

theorem unnoticed_writeAndRead : EachStep next Unnoticed copied writeAndRead := by
  have hino : (run copied (writeAndRead.take 3)).fuse.inodes 2 = some ["g".toList] := by
    decide +kernel
  have hshared : sharedBacking (run copied (writeAndRead.take 3)).fuse 2 = none := by
    decide +kernel
  -- the list of layers does not have the new file
  have hlist : physicalForWithLayer ["g".toList] (run copied (writeAndRead.take 3)).layers =
      none := by decide +kernel
  refine ⟨trivial, trivial, trivial, fun _ path hpath => ?_, trivial, trivial⟩
  cases hino.symm.trans hpath
  refine ⟨fun b hb => ?_, Or.inr ⟨hshared, Or.inr fun i hi => ?_⟩⟩
  · cases hshared.symm.trans hb
  · cases hlist.symm.trans hi

theorem whole_daemon_pivots_writeAndRead :
    (run copied writeAndRead).old = served.root.upper ∧
    Fuse.Shown ((run copied (writeAndRead.take 2)).next (.release 1)).fuse ["g".toList] [7] := by
  have hpivoted := whole_daemon_pivots served fileMount served.root.upper true copied
    writeAndRead rfl doPivotUpper_copied unnoticed_writeAndRead
  have hok : (run copied (writeAndRead.take 2)).respond (.release 1) = .ok .ok := by decide +kernel
  have hfile : (run copied (writeAndRead.take 2)).fuse.openFiles 1 =
      some (.buffered ["g".toList] [7] true true) := rfl
  exact ⟨hpivoted.2.1, hpivoted.2.2.2.2.2 (writeAndRead.take 2) 1 (writeAndRead.drop 3)
    ["g".toList] [7] true .ok rfl (by decide) hfile ⟨Tree.straight _ _, Tree.straight _ _⟩ hok⟩

/-- The pivot is to a copy of the upper directory, and a file created after it is not found
by the next lookup. -/
theorem created_not_found :
    doPivotUpper (some fileMount) served served.root.upper true = .ok copied ∧
    (copied.respond (.create 1 "g".toList ⟨.writeOnly, false, true⟩)).map bare =
      .ok (.created ⟨2, 0, .regularFile⟩ 1) ∧
    (copied.next (.create 1 "g".toList ⟨.writeOnly, false, true⟩)).respond
      (.lookup 1 "g".toList) = .error .enoent := by
  refine ⟨doPivotUpper_copied, ?_, ?_⟩
  · decide +kernel
  · decide +kernel

end Pivoted

end Rspacefs
