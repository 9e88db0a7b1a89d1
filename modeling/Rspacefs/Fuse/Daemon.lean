import Mathlib.Logic.Function.Basic
import Rspacefs.Fuse.SideChannel

/-!
# The FUSE daemon

`rspacefs-fuse/src/fs.rs`, handler by handler. A request runs to its reply before
the next one starts; a handler that answers an error keeps what it did before.

Content, listings and removals go through the overlay; kinds, links and copies into
the upper layer go past it, to the directories themselves. Modes, owners, times
and extended attributes are not part of the state: where the host decides whether
setting one succeeds, and where the kernel decides whether it takes a file for
passthrough, the request carries the answer.

A file that is open for reading only is held as it was when it was opened, as the
readers of `MemoryFS` do. Those of `PhysicalFS` go to the file at each request: the two
differ when the file is changed in place while it is open.

## Main definitions

* `Fuse`, `OpenFile` — the daemon's tables and its open files
* `Request`, `Reply`, `step` — one definition per handler, and their dispatch
* `next`, `respond`, `run` — the state after a request, its reply, and runs
-/

namespace Rspacefs

open Lib

/-- Inode numbers and file handles. -/
abbrev Ino := Nat

abbrev Fh := Nat

/-- The error of a reply. -/
inductive Errno
  | enoent
  | einval
  | eio
  | eexist
  | enotempty
  | ebadf
  | eacces
  /-- Whatever the failing call of the host gave. -/
  | host
  deriving DecidableEq, Repr

/-- A backing file registered with the kernel. -/
structure BackingId where
  id : Nat
  layer : Nat
  path : Path
  deriving DecidableEq, Repr

/-- Per-open-file state. -/
inductive OpenFile
  /-- Read-only; the kernel reads the backing file itself. -/
  | passthrough (backing : BackingId)
  /-- Read-only; the daemon reads through the overlay, here all of it at the open. -/
  | streaming (reader : Reader)
  /-- Writable: the file in memory, flushed on `release` and `fsync`. -/
  | buffered (path : Path) (data : Bytes) (dirty writable : Bool)

/-- The daemon: the overlay with its layer directories, and the tables. -/
structure Fuse (υ ℓ : Type) where
  root : LayerFS υ ℓ
  verifiedLayers : List Bool
  inodes : Ino → Option Path
  paths : Path → Option Ino
  nextIno : Ino
  nextFh : Fh
  openFiles : Fh → Option OpenFile
  backingCache : Ino → Option BackingId
  nextBacking : Nat
  /-- Stack frames left for the overlay's recursive operations. -/
  frames : Nat

namespace Fuse

def rootIno : Ino := 1

/-- A new adapter over the layers. -/
def new {υ ℓ : Type} (root : LayerFS υ ℓ) (verifiedLayers : List Bool) (frames : Nat) :
    Fuse υ ℓ where
  root := root
  verifiedLayers := verifiedLayers
  inodes := Function.update (fun _ => none) rootIno (some [])
  paths := Function.update (fun _ => none) [] (some rootIno)
  nextIno := rootIno + 1
  nextFh := 1
  openFiles := fun _ => none
  backingCache := fun _ => none
  nextBacking := 0
  frames := frames

end Fuse

/-- A handler. -/
abbrev FuseM (υ ℓ α : Type) := EStateM Errno (Fuse υ ℓ) α

/-! ### Requests and replies -/

/-- `FileAttr`, as far as the layers decide it here. -/
structure FileAttr where
  ino : Ino
  size : Nat
  kind : FileKind
  deriving DecidableEq, Repr

/-- The access mode of an open. -/
inductive AccMode
  | readOnly
  | writeOnly
  | readWrite
  deriving DecidableEq, Repr

structure OpenFlags where
  accmode : AccMode
  trunc : Bool
  excl : Bool
  deriving DecidableEq, Repr

def OpenFlags.writable (flags : OpenFlags) : Bool :=
  flags.accmode = .writeOnly || flags.accmode = .readWrite

/-- What `setattr` is asked for. `needsUpper` is set by a mode, an owner, a group or
a time; `applied` is the host's answer to setting them. -/
structure SetAttr where
  size : Option Nat
  needsUpper : Bool
  applied : Except Errno Unit

inductive Request
  | lookup (parent : Ino) (name : Name)
  | getattr (ino : Ino)
  | setattr (ino : Ino) (attrs : SetAttr)
  /-- `capacity` entries fit into the reply. -/
  | readdir (ino : Ino) (offset capacity : Nat)
  | mkdir (parent : Ino) (name : Name)
  | rmdir (parent : Ino) (name : Name)
  /-- `backed`: the backing file opens and the kernel takes it. -/
  | openInode (ino : Ino) (flags : OpenFlags) (backed : Bool)
  | read (fh : Fh) (offset size : Nat)
  | write (fh : Fh) (offset : Nat) (data : Bytes)
  | release (fh : Fh)
  | create (parent : Ino) (name : Name) (flags : OpenFlags)
  | unlink (parent : Ino) (name : Name)
  | rename (parent : Ino) (name : Name) (newparent : Ino) (newname : Name)
  | readlink (ino : Ino)
  | symlink (parent : Ino) (name : Name) (link : Target)
  | setxattr (ino : Ino) (applied : Except Errno Unit)
  | removexattr (ino : Ino) (applied : Except Errno Unit)
  | fsync (fh : Fh)
  | flush

structure DirEntry where
  ino : Ino
  /-- The cookie a following `readdir` continues at. -/
  offset : Nat
  kind : FileKind
  name : Name
  deriving DecidableEq, Repr

inductive Reply
  | ok
  | entry (attr : FileAttr)
  | attr (attr : FileAttr)
  | directory (entries : List DirEntry)
  | opened (fh : Fh)
  | openedPassthrough (fh : Fh) (backing : BackingId)
  | data (bytes : Bytes)
  | written (size : Nat)
  | created (attr : FileAttr) (fh : Fh)
  | target (link : Target)
  deriving DecidableEq, Repr

/-! ### The buffer of a writable handle -/

/-- The slice a `read` replies. -/
def readBuffer (data : Bytes) (offset size : Nat) : Bytes :=
  if offset ≥ data.length then []
  else (data.take (min (offset + size) data.length)).drop offset

/-- Grow the buffer to the end of the write if it is shorter, then overwrite. -/
def writeBuffer (buf : Bytes) (off : Nat) (data : Bytes) : Bytes :=
  let stop := off + data.length
  let buf := if stop > buf.length then buf ++ List.replicate (stop - buf.length) 0 else buf
  buf.take off ++ data ++ buf.drop stop

namespace Fuse

variable {υ ℓ : Type}

/-! ### Paths and tables -/

/-- `if c { return reply.error(e) }`. -/
def failIf (e : Errno) (c : Fuse υ ℓ → Bool) : FuseM υ ℓ Unit :=
  ask fun s => if c s then .error e else .ok ()

/-- `if c { … }`. -/
def doIf (c : Bool) (x : FuseM υ ℓ Unit) : FuseM υ ℓ Unit := if c then x else pure ()

/-- `path_of`, where a missing inode is answered at once. -/
def pathOf (ino : Ino) : FuseM υ ℓ Path :=
  ask fun s => match s.inodes ino with
    | some path => .ok path
    | none => .error .enoent

/-- `join`, where a name that is no name is answered at once. -/
def join (parent : Path) (name : Name) : FuseM υ ℓ Path :=
  if ValidName name then pure (parent ++ [name]) else throw .einval

def internPath (path : Path) : FuseM υ ℓ Ino := do
  let s ← get
  match s.paths path with
  | some ino => return ino
  | none =>
    set { s with
      paths := Function.update s.paths path (some s.nextIno)
      inodes := Function.update s.inodes s.nextIno (some path)
      nextIno := s.nextIno + 1 }
    return s.nextIno

/-- Drop the inode binding of a path that is gone. -/
def unbind (path : Path) : FuseM υ ℓ Unit :=
  modify fun s => match s.paths path with
    | some ino => { s with
        paths := Function.update s.paths path none
        inodes := Function.update s.inodes ino none }
    | none => s

/-- Update the inode bindings after a rename. -/
def rebind (src dst : Path) : FuseM υ ℓ Unit :=
  modify fun s => match s.paths src with
    | some ino => { s with
        inodes := Function.update s.inodes ino (some dst)
        paths := Function.update (Function.update s.paths src none) dst (some ino) }
    | none => s

def allocFh : FuseM υ ℓ Fh := do
  let s ← get
  set { s with nextFh := s.nextFh + 1 }
  return s.nextFh

def insertFile (fh : Fh) (file : OpenFile) : FuseM υ ℓ Unit :=
  modify fun s => { s with openFiles := Function.update s.openFiles fh (some file) }

def removeFile (fh : Fh) : FuseM υ ℓ Unit :=
  modify fun s => { s with openFiles := Function.update s.openFiles fh none }

/-- The open file behind a handle. -/
def fileOf (fh : Fh) : FuseM υ ℓ OpenFile :=
  ask fun s => match s.openFiles fh with
    | some file => .ok file
    | none => .error .ebadf

/-- A call on the overlay, whose failure is answered as `errno`. -/
def onRoot {α : Type} (errno : Errno) (x : VfsM (LayerFS υ ℓ) α) : FuseM υ ℓ α :=
  onPart root (fun fs s => { s with root := fs }) (EStateM.adaptExcept (fun _ => errno) x)

/-- A call of the host on the upper directory. -/
def onUpperDir {α : Type} (x : VfsM υ α) : FuseM υ ℓ α :=
  onRoot .host (LayerFS.onUpper x)

variable [PhysicalFS υ] [PhysicalFS ℓ]

/-- `VfsPath::exists` with `unwrap_or(false)`. -/
def existsInRoot (path : Path) (s : Fuse υ ℓ) : Bool := unwrapOr false (existsAt s.root path)

/-- The layer directory with the given index, asked for its entry at a path. -/
def layerMetadata (fs : LayerFS υ ℓ) (path : Path) : Nat → Option LinkMetadata
  | 0 => symlinkMetadata fs.upper path
  | i + 1 => fs.lower[i]?.bind fun layer => symlinkMetadata layer path

/-- The entry of the physical file backing a path. -/
def physicalMetadata (path : Path) (fs : LayerFS υ ℓ) : Option LinkMetadata :=
  (physicalForWithLayer path fs).bind (layerMetadata fs path)

def kindOf : VfsFileType → FileKind
  | .file => .regularFile
  | .directory => .directory

/-- Attributes from the physical file, else from what the caller knows. -/
def makeAttr (ino : Ino) (path : Path) (ft : VfsFileType) (size : Nat) (fs : LayerFS υ ℓ) :
    FileAttr :=
  match physicalMetadata path fs with
  | some m => ⟨ino, m.len, m.kind⟩
  | none => ⟨ino, size, kindOf ft⟩

/-- `make_attr` on the present state. -/
def attrNow (ino : Ino) (path : Path) (ft : VfsFileType) : FuseM υ ℓ FileAttr :=
  ask fun s => .ok (makeAttr ino path ft 0 s.root)

/-- `attr_for_path`, where a path without a physical file is answered at once. -/
def attrForPath (ino : Ino) (path : Path) : FuseM υ ℓ FileAttr := do
  failIf .enoent fun s => (physicalForWithLayer path s.root).isNone
  attrNow ino path .file

/-! ### Copying into the upper directory -/

/-- One level of `create_dir_all`: a directory that is there already is fine. -/
def createDirOnce (path : Path) : VfsM υ Unit :=
  tryCatch (FileSystem.createDir path) fun e => do
    let isDir ← ask fun u : υ =>
      .ok (unwrapOr false ((·.fileType = .directory) <$> metadata u path))
    if isDir then pure () else throw e

/-- `std::fs::create_dir_all` of `current/n₁/n₂/…`. -/
def createDirAll (current : Path) : List Name → VfsM υ Unit
  | [] => return
  | part :: rest => do
    createDirOnce (current ++ [part])
    createDirAll (current ++ [part]) rest

/-- `copy_with_reflink`. -/
def copyWithReflink (content : VfsResult Bytes) (path : Path) : VfsM υ Unit := do
  let data ← ask fun _ => content
  let writer ← FileSystem.createFile path
  FileSystem.writeAll writer data

/-- Put a copy of the lower entry at `path` into the upper directory. -/
def copyEntry (layer : ℓ) (path : Path) : FuseM υ ℓ Unit :=
  match symlinkMetadata layer path with
  | none => throw .host
  | some m => do
    onUpperDir (createDirAll [] path.dropLast)
    match m.kind with
    | .symlink =>
      match readLink layer path with
      | some target => onUpperDir (PhysicalFS.symlink target path)
      | none => throw .host
    | .directory => onUpperDir (FileSystem.createDir path)
    | .regularFile => onUpperDir (copyWithReflink (fileContent layer path) path)

/-- Remove the whiteout marker of a path in the upper directory, if there is one. -/
def dropWhiteout (path : Path) : FuseM υ ℓ Unit :=
  attempt (onUpperDir (FileSystem.removeFile (whiteoutPath path)))

/-- The lower directory that backs a path the upper directory does not have. -/
def lowerSource (path : Path) (fs : LayerFS υ ℓ) : Except Errno ℓ :=
  match physicalForWithLayer path fs with
  | some (i + 1) => match fs.lower[i]? with
    | some layer => .ok layer
    | none => .error .enoent
  | _ => .error .enoent

/-- Ensure `path` exists in the upper layer, copied up from whichever lower layer
holds it. -/
def ensureInUpper (path : Path) : FuseM υ ℓ Unit := do
  if ← ask fun s => .ok (symlinkMetadata s.root.upper path).isSome then return
  else
    let layer ← ask fun s => lowerSource path s.root
    copyEntry layer path
    dropWhiteout path

/-! ### The handlers -/

def lookup (parent : Ino) (name : Name) : FuseM υ ℓ Reply := do
  let path ← join (← pathOf parent) name
  failIf .enoent fun s => (physicalForWithLayer path s.root).isNone
  let ino ← internPath path
  return .entry (← attrNow ino path .file)

def getattr (ino : Ino) : FuseM υ ℓ Reply := do
  return .attr (← attrForPath ino (← pathOf ino))

def setattr (ino : Ino) (attrs : SetAttr) : FuseM υ ℓ Reply := do
  let path ← pathOf ino
  -- only truncation to zero is done; any other size is ignored
  doIf (attrs.size = some 0) do
    let _ ← onRoot .eio (VfsPath.createFile path)
  doIf attrs.needsUpper do
    ensureInUpper path
    ask fun _ => attrs.applied
  return .attr (← attrForPath ino path)

/-- The listing `readdir` makes of the names in a directory. -/
def listEntries (path : Path) : List Name → FuseM υ ℓ (List (Ino × FileKind × Name))
  | [] => return []
  | name :: names => do
    let kind ← ask fun s =>
      .ok (((physicalMetadata (path ++ [name]) s.root).map (·.kind)).getD .regularFile)
    let ino ← internPath (path ++ [name])
    return (ino, kind, name) :: (← listEntries path names)

def readdir (ino : Ino) (offset capacity : Nat) : FuseM υ ℓ Reply := do
  let path ← pathOf ino
  let names ← onRoot .eio (ask fun fs : LayerFS υ ℓ => readDir fs path)
  let parentIno ← ask fun s => .ok
    (if ino = rootIno then rootIno else (s.paths path.dropLast).getD rootIno)
  let children ← listEntries path names
  let all := (ino, .directory, ".".toList) :: (parentIno, .directory, "..".toList) :: children
  return .directory (((all.mapIdx fun i (ino, kind, name) => ⟨ino, i + 1, kind, name⟩).drop
    offset).take capacity)

def mkdir (parent : Ino) (name : Name) : FuseM υ ℓ Reply := do
  let path ← join (← pathOf parent) name
  failIf .eexist (existsInRoot path)
  onRoot .eio (VfsPath.createDir path)
  let ino ← internPath path
  return .entry (← attrNow ino path .directory)

def rmdir (parent : Ino) (name : Name) : FuseM υ ℓ Reply := do
  let path ← join (← pathOf parent) name
  failIf .enotempty fun s => !(unwrapOr [] (readDir s.root path)).isEmpty
  onRoot .eio (FileSystem.removeDir path)
  unbind path
  return .ok

/-- Is a registered backing still held by an open file? -/
def live (s : Fuse υ ℓ) (backing : BackingId) : Bool :=
  (List.range s.nextFh).any fun fh => match s.openFiles fh with
    | some (.passthrough b) => b = backing
    | _ => false

/-- Open for writing: the file is read into memory. -/
def openBuffered (path : Path) (flags : OpenFlags) (fh : Fh) : FuseM υ ℓ Reply := do
  failIf .enoent fun s => !existsInRoot path s
  let data ← ask fun s =>
    if flags.trunc then .ok [] else
      match openFile s.root path with
      -- a file that does not open leaves the buffer empty
      | .error _ => .ok []
      | .ok reader => match reader.readToEnd with
        | .ok data => .ok data
        | .error _ => .error .eio
  insertFile fh (.buffered path data false true)
  return .opened fh

/-- Register the physical file of a path with the kernel, or find it registered. -/
def openBacking (ino : Ino) (path : Path) (backed : Bool) : FuseM υ ℓ (Option BackingId) := do
  let s ← get
  match physicalForWithLayer path s.root with
  | none => return none
  | some layer =>
    if s.verifiedLayers.getD layer false then return none
    else match (s.backingCache ino).filter s.live with
      | some backing => return some backing
      | none =>
        if backed then
          let backing := ⟨s.nextBacking, layer, path⟩
          set { s with
            backingCache := Function.update s.backingCache ino (some backing)
            nextBacking := s.nextBacking + 1 }
          return some backing
        else return none

/-- Open for reading: passthrough, else through the overlay. -/
def openReadOnly (ino : Ino) (path : Path) (backed : Bool) (fh : Fh) : FuseM υ ℓ Reply := do
  match ← openBacking ino path backed with
  | some backing =>
    insertFile fh (.passthrough backing)
    return .openedPassthrough fh backing
  | none =>
    failIf .enoent fun s => !existsInRoot path s
    let reader ← onRoot .eio (ask fun fs : LayerFS υ ℓ => openFile fs path)
    insertFile fh (.streaming reader)
    return .opened fh

def openInode (ino : Ino) (flags : OpenFlags) (backed : Bool) : FuseM υ ℓ Reply := do
  let path ← pathOf ino
  let fh ← allocFh
  if flags.writable then openBuffered path flags fh else openReadOnly ino path backed fh

def read (fh : Fh) (offset size : Nat) : FuseM υ ℓ Reply := do
  match ← fileOf fh with
  | .passthrough _ => throw .eio
  | .streaming reader =>
    match reader.readToEnd with
    | .ok data => return .data (readBuffer data offset size)
    | .error _ => throw .eio
  | .buffered _ data _ _ => return .data (readBuffer data offset size)

def write (fh : Fh) (offset : Nat) (data : Bytes) : FuseM υ ℓ Reply := do
  match ← fileOf fh with
  | .passthrough _ | .streaming _ => throw .eacces
  | .buffered path buf _ writable =>
    failIf .eacces fun _ => !writable
    insertFile fh (.buffered path (writeBuffer buf offset data) true writable)
    return .written data.length

/-- Write a buffer back to the path the handle was opened at. -/
def writeBack (path : Path) (data : Bytes) : FuseM υ ℓ Unit := do
  let writer ← onRoot .eio (VfsPath.createFile path)
  onRoot .eio (FileSystem.writeAll writer data)

def release (fh : Fh) : FuseM υ ℓ Reply := do
  let file ← fileOf fh
  removeFile fh
  match file with
  | .passthrough _ | .streaming _ => return .ok
  | .buffered path data dirty _ =>
    doIf dirty (writeBack path data)
    return .ok

def create (parent : Ino) (name : Name) (flags : OpenFlags) : FuseM υ ℓ Reply := do
  let path ← join (← pathOf parent) name
  let there ← ask fun s => .ok (existsInRoot path s)
  failIf .eexist fun _ => there && flags.excl
  -- an existing file is opened, and clobbered only on `O_TRUNC`
  doIf (!there || flags.trunc) do
    let _ ← onRoot .eio (VfsPath.createFile path)
  let ino ← internPath path
  let attr ← attrNow ino path .file
  let fh ← allocFh
  insertFile fh (.buffered path [] false true)
  return .created attr fh

def unlink (parent : Ino) (name : Name) : FuseM υ ℓ Reply := do
  let path ← join (← pathOf parent) name
  failIf .enoent fun s => !existsInRoot path s
  onRoot .eio (FileSystem.removeFile path)
  unbind path
  return .ok

/-- What `rename` takes for a directory. -/
def isDirInRoot (path : Path) (s : Fuse υ ℓ) : Bool :=
  match metadata s.root path with
  | .ok md => md.fileType = .directory
  | .error _ => false

def rename (parent : Ino) (name : Name) (newparent : Ino) (newname : Name) : FuseM υ ℓ Reply := do
  let parentPath ← pathOf parent
  let newParentPath ← pathOf newparent
  let src ← join parentPath name
  let dst ← join newParentPath newname
  let frames ← ask fun s => .ok s.frames
  let isDir ← ask fun s => .ok (isDirInRoot src s)
  onRoot .eio (if isDir then VfsPath.moveDir frames src dst else VfsPath.moveFile src dst)
  rebind src dst
  return .ok

def readlink (ino : Ino) : FuseM υ ℓ Reply := do
  let path ← pathOf ino
  ask fun s => match physicalForWithLayer path s.root with
    | none => .error .enoent
    | some i =>
      let link := match i with
        | 0 => readLink s.root.upper path
        | i + 1 => s.root.lower[i]?.bind fun layer => readLink layer path
      match link with
      | some link => .ok (.target link)
      | none => .error .host

def symlink (parent : Ino) (name : Name) (link : Target) : FuseM υ ℓ Reply := do
  let parentPath ← pathOf parent
  let path ← join parentPath name
  -- links always go into the upper directory
  dropWhiteout path
  onUpperDir (createDirAll [] parentPath)
  onUpperDir (PhysicalFS.symlink link path)
  let ino ← internPath path
  return .entry (← attrNow ino path .file)

/-- `setxattr` and `removexattr`: they need a target that can be written to. -/
def changeXattr (ino : Ino) (applied : Except Errno Unit) : FuseM υ ℓ Reply := do
  ensureInUpper (← pathOf ino)
  ask fun _ => applied
  return .ok

def setxattr (ino : Ino) (applied : Except Errno Unit) : FuseM υ ℓ Reply :=
  changeXattr ino applied

def removexattr (ino : Ino) (applied : Except Errno Unit) : FuseM υ ℓ Reply :=
  changeXattr ino applied

def fsync (fh : Fh) : FuseM υ ℓ Reply := do
  match ← fileOf fh with
  | .passthrough _ | .streaming _ => return .ok
  | .buffered path data dirty writable =>
    doIf dirty do
      writeBack path data
      insertFile fh (.buffered path data false writable)
    return .ok

/-- The write-back is left to `release`. -/
def flush : FuseM υ ℓ Reply := return .ok

/-- The handler of a request. -/
def step : Request → FuseM υ ℓ Reply
  | .lookup parent name => lookup parent name
  | .getattr ino => getattr ino
  | .setattr ino attrs => setattr ino attrs
  | .readdir ino offset capacity => readdir ino offset capacity
  | .mkdir parent name => mkdir parent name
  | .rmdir parent name => rmdir parent name
  | .openInode ino flags backed => openInode ino flags backed
  | .read fh offset size => read fh offset size
  | .write fh offset data => write fh offset data
  | .release fh => release fh
  | .create parent name flags => create parent name flags
  | .unlink parent name => unlink parent name
  | .rename parent name newparent newname => rename parent name newparent newname
  | .readlink ino => readlink ino
  | .symlink parent name link => symlink parent name link
  | .setxattr ino applied => setxattr ino applied
  | .removexattr ino applied => removexattr ino applied
  | .fsync fh => fsync fh
  | .flush => flush

/-- The state after a request. -/
def next (s : Fuse υ ℓ) (r : Request) : Fuse υ ℓ := finalState (step r) s

/-- The reply to a request. -/
def respond (s : Fuse υ ℓ) (r : Request) : Except Errno Reply :=
  match (step r).run s with
  | .ok reply _ => .ok reply
  | .error e _ => .error e

/-- The state after a run of requests. -/
def run (s : Fuse υ ℓ) (rs : List Request) : Fuse υ ℓ := rs.foldl next s

/-- One file in an otherwise empty overlay. -/
def oneFile : Fuse Tree Tree := new ⟨Tree.ofEntries [(["f".toList], .file [1])], []⟩ [] 8

end Fuse

end Rspacefs
