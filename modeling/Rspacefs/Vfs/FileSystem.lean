import Rspacefs.Lib.EState
import Rspacefs.Vfs.Path

/-!
# The `vfs::FileSystem` trait

`LayerFS` is written against the `vfs` crate: its layers are `VfsPath`s over some
`FileSystem`, and it is a `FileSystem` itself. The class below is the part of the
trait that this repository calls. Methods that only look are functions of the
backend's state; methods that change it are programs which may fail half way and
then keep what they did.

`VfsPath` adds one thing to the trait's methods: before it creates a file or a
directory it checks that the parent exists and is a directory.
-/

namespace Rspacefs

open Lib

/-- File contents. -/
abbrev Bytes := List UInt8

/-- `VfsErrorKind`. -/
inductive VfsError
  | fileNotFound
  | fileExists
  | directoryExists
  | invalidPath
  | notSupported
  | ioError
  | other (message : String)
  /-- The call stack is exhausted; in the daemon this ends the process. -/
  | stackOverflow
  deriving DecidableEq, Repr

abbrev VfsResult (α : Type) := Except VfsError α

/-- A method that changes the backend `σ`. -/
abbrev VfsM (σ α : Type) := EStateM VfsError σ α

/-- `Result::unwrap_or`. -/
def unwrapOr {α : Type} (default : α) : VfsResult α → α
  | .ok a => a
  | .error _ => default

@[simp] theorem unwrapOr_ok {α : Type} (d a : α) : unwrapOr d (.ok a) = a := rfl

inductive VfsFileType
  | file
  | directory
  deriving DecidableEq, Repr

/-- `VfsMetadata`. -/
structure VfsMetadata where
  fileType : VfsFileType
  len : Nat
  deriving DecidableEq, Repr

/-- A `Box<dyn SeekAndRead>` positioned at the start, as what reading it to the
end gives: opening and reading can fail separately. -/
structure Reader where
  readToEnd : VfsResult Bytes

/-- A `Box<dyn SeekAndWrite>`: the file it writes to and its position. -/
structure Writer where
  path : Path
  position : Nat
  deriving DecidableEq, Repr

/-- The `vfs::FileSystem` methods in use, and `Write::write_all` on the handles
they return. -/
class FileSystem (σ : Type) where
  readDir : σ → Path → VfsResult (List Name)
  openFile : σ → Path → VfsResult Reader
  metadata : σ → Path → VfsResult VfsMetadata
  existsAt : σ → Path → VfsResult Bool
  createDir : Path → VfsM σ Unit
  createFile : Path → VfsM σ Writer
  appendFile : Path → VfsM σ Writer
  removeFile : Path → VfsM σ Unit
  removeDir : Path → VfsM σ Unit
  writeAll : Writer → Bytes → VfsM σ Unit

export FileSystem (readDir openFile metadata existsAt)

/-- Opening a file and reading it to the end. -/
def contentAt {τ : Type} [FileSystem τ] (u : τ) (p : Path) : VfsResult Bytes := do
  (← openFile u p).readToEnd

/-- Overwrite `data` from `position` on, filling a gap with zeros. -/
def splice (data : Bytes) (position : Nat) (bytes : Bytes) : Bytes :=
  (data ++ List.replicate (position - data.length) 0).take position ++ bytes ++
    data.drop (position + bytes.length)

@[simp] theorem splice_nil (bytes : Bytes) : splice [] 0 bytes = bytes := by simp [splice]

/-- Writing at the end appends. -/
@[simp] theorem splice_length (data bytes : Bytes) :
    splice data data.length bytes = data ++ bytes := by
  simp [splice]

namespace VfsPath

variable {σ : Type} [FileSystem σ]

/-- `VfsPath::get_parent`. -/
def getParent (action : String) (path : Path) (fs : σ) : VfsResult Unit := do
  let parent := path.dropLast
  if !(← existsAt fs parent) then
    throw (.other ("Could not " ++ action ++ ", parent directory does not exist"))
  if (← metadata fs parent).fileType ≠ .directory then
    throw (.other ("Could not " ++ action ++ ", parent path is not a directory"))

/-- `VfsPath::create_dir`. -/
def createDir (path : Path) : VfsM σ Unit := do
  ask (getParent "create directory" path)
  FileSystem.createDir path

/-- `VfsPath::create_file`. -/
def createFile (path : Path) : VfsM σ Writer := do
  ask (getParent "create file" path)
  FileSystem.createFile path

end VfsPath

end Rspacefs
