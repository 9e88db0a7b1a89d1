import Mathlib.Data.Char
import Mathlib.Data.List.Sort
import Mathlib.Data.List.Lex
import Rspacefs.Vfs.FileSystem

/-!
# `LayerFS`: the layered filesystem

`rspacefs-core/src/layer.rs`, function by function: a writable upper layer over
read-only lower layers, merged under whiteout and opaque markers. The layers are
any `FileSystem`s, and `LayerFS` is one.

The lower layers never change, and the source caches, per lower layer and
directory, the whiteout names found there and whether there is an opaque marker.
`lowerHasWhiteout` and `lowerIsOpaqueAbove` below are the probes that fill these
caches.

`copyDirRecursive` and `removeDirRecursive` call themselves once per directory
level. Their first argument is the number of stack frames left; running out of
it is `VfsError.stackOverflow`.
-/

namespace Rspacefs

open Lib

/-- A writable upper layer over lower layers, the first of which has the highest
priority. -/
structure LayerFS (υ ℓ : Type) where
  upper : υ
  lower : List ℓ

namespace LayerFS

variable {υ ℓ : Type}

/-- The layer a path was found in. -/
inductive Resolved (ℓ : Type)
  | upper
  | lower (index : Nat) (layer : ℓ)
  deriving DecidableEq

/-- Run a call on the upper layer. -/
def onUpper {α : Type} (x : VfsM υ α) : VfsM (LayerFS υ ℓ) α :=
  onPart upper (fun u fs => { fs with upper := u }) x

variable [FileSystem υ] [FileSystem ℓ]

/-! ### Resolution -/

/-- Is `path` whited out in the given layer? Used for the upper layer. -/
def isWhiteout {σ : Type} [FileSystem σ] (path : Path) (layer : σ) : VfsResult Bool :=
  existsAt layer (whiteoutPath path)

/-- The whiteout names in a directory of a lower layer; opaque markers are
tracked separately. -/
def collectWhiteouts (layer : ℓ) (parent : Path) : List Name :=
  if unwrapOr false (existsAt layer parent) then
    match FileSystem.readDir layer parent with
    | .ok names => names.filterMap fun n => if n = opaqueWhiteout then none else stripWhiteout n
    | .error _ => []
  else []

/-- Does a lower layer contain `<parent>/.wh.<name>`? -/
def lowerHasWhiteout (layer : ℓ) (parent : Path) (name : Name) : VfsResult Bool :=
  .ok (decide (name ∈ collectWhiteouts layer parent))

/-- The loop of `is_opaque_above`, from a directory up to the root. The directory
is given last component first. -/
def opaqueWalk {σ : Type} [FileSystem σ] (layer : σ) : List Name → VfsResult Bool
  | [] => existsAt layer (opaquePath [])
  | n :: up => do
    if ← existsAt layer (opaquePath (n :: up).reverse) then return true
    opaqueWalk layer up

/-- Does a directory above `path` have an opaque marker? Used for the upper
layer. -/
def isOpaqueAbove {σ : Type} [FileSystem σ] (path : Path) (layer : σ) : VfsResult Bool :=
  opaqueWalk layer (splitPath path).1.reverse

/-- The loop of `lower_is_opaque_above`: a probe that fails counts as no marker. -/
def lowerOpaqueWalk (layer : ℓ) : List Name → Bool
  | [] => unwrapOr false (existsAt layer (opaquePath []))
  | n :: up =>
    unwrapOr false (existsAt layer (opaquePath (n :: up).reverse)) || lowerOpaqueWalk layer up

/-- Does `parent` or a directory above it have an opaque marker in this lower
layer? -/
def lowerIsOpaqueAbove (layer : ℓ) (parent : Path) : VfsResult Bool :=
  .ok (lowerOpaqueWalk layer parent.reverse)

/-- The loop of `resolve` over the lower layers, from index `i` on. -/
def resolveLower (path : Path) : Nat → List ℓ → VfsResult (Option (Resolved ℓ))
  | _, [] => return none
  | i, layer :: rest => do
    let (parent, name) := splitPath path
    if ← lowerHasWhiteout layer parent name then return none
    if ← existsAt layer path then return some (.lower i layer)
    if ← lowerIsOpaqueAbove layer parent then return none
    resolveLower path (i + 1) rest

/-- The first layer that contains `path`, respecting whiteouts. -/
def resolve (path : Path) (fs : LayerFS υ ℓ) : VfsResult (Option (Resolved ℓ)) := do
  if ← isWhiteout path fs.upper then return none
  if ← existsAt fs.upper path then return some .upper
  if ← isOpaqueAbove path fs.upper then return none
  resolveLower path 0 fs.lower

namespace Resolved

def metadata (path : Path) (fs : LayerFS υ ℓ) : Resolved ℓ → VfsResult VfsMetadata
  | .upper => FileSystem.metadata fs.upper path
  | .lower _ layer => FileSystem.metadata layer path

def openFile (path : Path) (fs : LayerFS υ ℓ) : Resolved ℓ → VfsResult Reader
  | .upper => FileSystem.openFile fs.upper path
  | .lower _ layer => FileSystem.openFile layer path

end Resolved

/-- `ok_or_else(|| FileNotFound)`. -/
def orNotFound {α : Type} : Option α → VfsResult α
  | some a => .ok a
  | none => .error .fileNotFound

/-! ### Reading -/

def existsAt (path : Path) (fs : LayerFS υ ℓ) : VfsResult Bool := do
  return (← resolve path fs).isSome

def metadata (path : Path) (fs : LayerFS υ ℓ) : VfsResult VfsMetadata := do
  let resolved ← orNotFound (← resolve path fs)
  resolved.metadata path fs

def openFile (path : Path) (fs : LayerFS υ ℓ) : VfsResult Reader := do
  let resolved ← orNotFound (← resolve path fs)
  resolved.openFile path fs

/-- The accumulators of `read_dir`. -/
structure Listing where
  entries : List Name := []
  seen : List Name := []
  whiteouts : List Name := []

namespace Listing

/-- A marker hides its target, except that opaque markers are no whiteouts. -/
def noteMarker (acc : Listing) (name : Name) : Listing :=
  if name = opaqueWhiteout then acc
  else { acc with whiteouts := (stripWhiteout name).getD name :: acc.whiteouts }

def push (acc : Listing) (name : Name) : Listing :=
  { acc with seen := name :: acc.seen, entries := acc.entries ++ [name] }

def addUpper (acc : Listing) (name : Name) : Listing :=
  if IsMarker name then acc.noteMarker name else acc.push name

def addLower (acc : Listing) (name : Name) : Listing :=
  if IsMarker name then acc.noteMarker name
  else if name ∈ acc.seen ∨ name ∈ acc.whiteouts then acc
  else acc.push name

end Listing

/-- The loop of `read_dir` over the lower layers. -/
def mergeLower (path : Path) : List ℓ → Listing → VfsResult Listing
  | [], acc => return acc
  | layer :: rest, acc => do
    if ← FileSystem.existsAt layer path then
      let names ← FileSystem.readDir layer path
      mergeLower path rest (names.foldl Listing.addLower acc)
    else mergeLower path rest acc

/-- What `read_dir` collects from the upper layer. -/
def listUpper (path : Path) (fs : LayerFS υ ℓ) : VfsResult Listing := do
  if ← FileSystem.existsAt fs.upper path then
    return (← FileSystem.readDir fs.upper path).foldl Listing.addUpper {}
  else return {}

def readDir (path : Path) (fs : LayerFS υ ℓ) : VfsResult (List Name) := do
  let isOpaque ← FileSystem.existsAt fs.upper (opaquePath path)
  let acc ← listUpper path fs
  let acc ← if isOpaque then pure acc else mergeLower path fs.lower acc
  return acc.entries.insertionSort (· ≤ ·)

/-! ### Changing the upper layer -/

/-- `if path.exists()? { … }`. -/
def whenExists {σ : Type} [FileSystem σ] (path : Path) (x : VfsM σ Unit) : VfsM σ Unit := do
  if ← ask fun layer : σ => FileSystem.existsAt layer path then x else pure ()

/-- `if !path.exists()? { … }`. -/
def unlessExists {σ : Type} [FileSystem σ] (path : Path) (x : VfsM σ Unit) : VfsM σ Unit := do
  if ← ask fun layer : σ => FileSystem.existsAt layer path then pure () else x

/-- Create the directories `current/n₁`, `current/n₁/n₂`, … that are missing. -/
def ensureDirs {σ : Type} [FileSystem σ] (current : Path) : List Name → VfsM σ Unit
  | [] => return
  | part :: rest => do
    unlessExists (current ++ [part]) (VfsPath.createDir (current ++ [part]))
    ensureDirs (current ++ [part]) rest

/-- Ensure parent directories exist in the upper layer (for copy-up). -/
def ensureUpperParents (path : Path) : VfsM (LayerFS υ ℓ) Unit :=
  onUpper (ensureDirs [] path.dropLast)

/-- Copy a file from a lower layer to the upper layer for modification. -/
def copyUp (path : Path) : VfsM (LayerFS υ ℓ) Unit := do
  let source ← ask fun fs : LayerFS υ ℓ => do orNotFound (← resolve path fs)
  ensureUpperParents path
  let md ← ask fun fs : LayerFS υ ℓ => source.metadata path fs
  if md.fileType = .directory then
    onUpper (VfsPath.createDir path)
  else do
    let reader ← ask fun fs : LayerFS υ ℓ => source.openFile path fs
    let data ← ask fun _ => reader.readToEnd
    let writer ← onUpper (VfsPath.createFile path)
    onUpper (FileSystem.writeAll writer data)

/-- Remove any whiteout marker for this path in the upper layer. -/
def removeWhiteout (path : Path) : VfsM (LayerFS υ ℓ) Unit :=
  onUpper (whenExists (whiteoutPath path) (FileSystem.removeFile (whiteoutPath path)))

/-- Create a whiteout marker in the upper layer for a deleted path. -/
def createWhiteout (path : Path) : VfsM (LayerFS υ ℓ) Unit := do
  ensureUpperParents (whiteoutPath path)
  onUpper (unlessExists (whiteoutPath path) do
    let _ ← VfsPath.createFile (whiteoutPath path))

def createDir (path : Path) : VfsM (LayerFS υ ℓ) Unit := do
  ensureUpperParents path
  removeWhiteout path
  onUpper (VfsPath.createDir path)

def createFile (path : Path) : VfsM (LayerFS υ ℓ) Writer := do
  ensureUpperParents path
  removeWhiteout path
  onUpper (VfsPath.createFile path)

def appendFile (path : Path) : VfsM (LayerFS υ ℓ) Writer := do
  if ← ask fun fs : LayerFS υ ℓ => FileSystem.existsAt fs.upper path then
    onUpper (FileSystem.appendFile path)
  else
    let resolved ← ask fun fs : LayerFS υ ℓ => resolve path fs
    if resolved.isSome then
      copyUp path
      onUpper (FileSystem.appendFile path)
    else throw .fileNotFound

/-- Does any lower layer hold the path? Whiteouts are not consulted. -/
def existsInLower (path : Path) (fs : LayerFS υ ℓ) : Bool :=
  fs.lower.any fun layer => unwrapOr false (FileSystem.existsAt layer path)

/-- `remove_file` and `remove_dir` differ only in how the upper entry goes. -/
def removeWith (removeUpper : Path → VfsM υ Unit) (path : Path) : VfsM (LayerFS υ ℓ) Unit := do
  onUpper (whenExists path (removeUpper path))
  if ← ask fun fs : LayerFS υ ℓ => .ok (existsInLower path fs) then createWhiteout path
  else pure ()

def removeFile (path : Path) : VfsM (LayerFS υ ℓ) Unit :=
  removeWith FileSystem.removeFile path

def removeDir (path : Path) : VfsM (LayerFS υ ℓ) Unit :=
  removeWith FileSystem.removeDir path

def copyFile (src dest : Path) : VfsM (LayerFS υ ℓ) Unit := do
  let source ← ask fun fs : LayerFS υ ℓ => do orNotFound (← resolve src fs)
  let reader ← ask fun fs : LayerFS υ ℓ => source.openFile src fs
  let data ← ask fun _ => reader.readToEnd
  ensureUpperParents dest
  removeWhiteout dest
  let writer ← onUpper (VfsPath.createFile dest)
  onUpper (FileSystem.writeAll writer data)

def moveFile (src dest : Path) : VfsM (LayerFS υ ℓ) Unit := do
  copyFile src dest
  removeFile src

/-- Recursively copy a directory from the overlay to the upper layer. -/
def copyDirRecursive : Nat → Path → Path → VfsM (LayerFS υ ℓ) Unit
  | 0, _, _ => throw .stackOverflow
  | frames + 1, src, dest => do
    ensureUpperParents dest
    removeWhiteout dest
    onUpper (unlessExists dest (VfsPath.createDir dest))
    let entries ← ask fun fs : LayerFS υ ℓ => readDir src fs
    entries.forM fun name => do
      let resolved ← ask fun fs : LayerFS υ ℓ => resolve (src ++ [name]) fs
      match resolved with
      | none => pure ()
      | some source =>
        let md ← ask fun fs : LayerFS υ ℓ => source.metadata (src ++ [name]) fs
        if md.fileType = .directory then
          copyDirRecursive frames (src ++ [name]) (dest ++ [name])
        else copyFile (src ++ [name]) (dest ++ [name])

/-- Clean up whiteout files that `remove_file` created in the upper directory. -/
def removeMarkers (path : Path) : VfsM υ Unit := whenExists path do
  let names ← ask fun layer : υ => FileSystem.readDir layer path
  names.forM fun name =>
    if IsMarker name then FileSystem.removeFile (path ++ [name]) else pure ()

/-- Recursively remove a directory (creating whiteouts as needed). -/
def removeDirRecursive : Nat → Path → VfsM (LayerFS υ ℓ) Unit
  | 0, _ => throw .stackOverflow
  | frames + 1, path => do
    let entries ← ask fun fs : LayerFS υ ℓ => readDir path fs
    entries.forM fun name => do
      let resolved ← ask fun fs : LayerFS υ ℓ => resolve (path ++ [name]) fs
      match resolved with
      | none => pure ()
      | some source =>
        let md ← ask fun fs : LayerFS υ ℓ => source.metadata (path ++ [name]) fs
        if md.fileType = .directory then removeDirRecursive frames (path ++ [name])
        else removeFile (path ++ [name])
    onUpper (removeMarkers path)
    removeDir path

def moveDir (frames : Nat) (src dest : Path) : VfsM (LayerFS υ ℓ) Unit := do
  copyDirRecursive frames src dest
  removeDirRecursive frames src

instance : FileSystem (LayerFS υ ℓ) where
  readDir fs path := readDir path fs
  openFile fs path := openFile path fs
  metadata fs path := metadata path fs
  existsAt fs path := existsAt path fs
  createDir := createDir
  createFile := createFile
  appendFile := appendFile
  removeFile := removeFile
  removeDir := removeDir
  writeAll writer bytes := onUpper (FileSystem.writeAll writer bytes)

end LayerFS

/-! ### `VfsPath` over a `LayerFS` -/

namespace VfsPath

variable {υ ℓ : Type} [FileSystem υ] [FileSystem ℓ]

/-- `VfsPath::copy_file` over a `LayerFS`. -/
def copyFile (src dest : Path) : VfsM (LayerFS υ ℓ) Unit := do
  if ← ask fun fs : LayerFS υ ℓ => existsAt fs dest then
    throw (.other "Destination exists already")
  else LayerFS.copyFile src dest

/-- `VfsPath::move_file` over a `LayerFS`. -/
def moveFile (src dest : Path) : VfsM (LayerFS υ ℓ) Unit := do
  if ← ask fun fs : LayerFS υ ℓ => existsAt fs dest then
    throw (.other "Destination exists already")
  else LayerFS.moveFile src dest

/-- `VfsPath::move_dir` over a `LayerFS`. -/
def moveDir (frames : Nat) (src dest : Path) : VfsM (LayerFS υ ℓ) Unit := do
  if ← ask fun fs : LayerFS υ ℓ => existsAt fs dest then
    throw (.other "Destination exists already")
  else LayerFS.moveDir frames src dest

end VfsPath

end Rspacefs
