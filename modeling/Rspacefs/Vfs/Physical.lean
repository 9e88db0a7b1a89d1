import Rspacefs.Vfs.Tree

/-!
# Directories on disk

The FUSE adapter looks at the layer directories a second time, past the `vfs`
crate, with `symlink_metadata`, `read_link`, `File::open` and `symlink`. `PhysicalFS` adds these
to the trait. What the trait's own methods report follows symbolic links;
`symlinkMetadata` does not follow the last component.

Where links lead is the host's business. `LawfulPhysicalFS` is what the adapter
relies on and what a directory gives: an entry that is found by following links is
an entry, and a listing has exactly the entries.

## Main definitions

* `PhysicalFS`, `LawfulPhysicalFS` — the interface and its laws
* `instance : PhysicalFS Tree` — a directory without symbolic links, on a
  filesystem that has none
-/

namespace Rspacefs

open Lib

/-- `FileType` of `std::fs`. -/
inductive FileKind
  | regularFile
  | directory
  | symlink
  deriving DecidableEq, Repr

/-- `std::fs::Metadata`, as far as the adapter's replies depend on it here. -/
structure LinkMetadata where
  kind : FileKind
  len : Nat
  deriving DecidableEq, Repr

/-- The text a symbolic link holds. -/
abbrev Target := List Char

/-- A directory on disk. -/
class PhysicalFS (σ : Type) extends FileSystem σ where
  /-- `std::fs::symlink_metadata`. -/
  symlinkMetadata : σ → Path → Option LinkMetadata
  /-- `std::fs::read_link`. -/
  readLink : σ → Path → Option Target
  /-- What reading the file itself gives, past whatever `openFile` checks. -/
  fileContent : σ → Path → VfsResult Bytes
  /-- `std::os::unix::fs::symlink`. -/
  symlink : Target → Path → VfsM σ Unit

export PhysicalFS (symlinkMetadata readLink fileContent)

/-- What a directory gives. -/
class LawfulPhysicalFS (σ : Type) [PhysicalFS σ] : Prop where
  /-- `Path::exists` does not fail. -/
  existsAt_ok : ∀ (u : σ) (p : Path), ∃ b, existsAt u p = .ok b
  /-- What is found by following links has an entry. -/
  symlinkMetadata_of_existsAt : ∀ (u : σ) (p : Path), existsAt u p = .ok true →
    (symlinkMetadata u p).isSome
  /-- A listing has exactly the entries. -/
  mem_readDir : ∀ (u : σ) (d : Path) (names : List Name) (n : Name), readDir u d = .ok names →
    (n ∈ names ↔ (symlinkMetadata u (d ++ [n])).isSome)
  /-- What has an entry in it is there and can be listed. -/
  readDir_of_symlinkMetadata : ∀ (u : σ) (d : Path) (n : Name),
    (symlinkMetadata u (d ++ [n])).isSome →
      existsAt u d = .ok true ∧ ∃ names, readDir u d = .ok names

namespace Tree

def kind : Node → FileKind
  | .file _ => .regularFile
  | .dir => .directory

instance : PhysicalFS Tree where
  symlinkMetadata t p := (t.get? p).map fun n => ⟨kind n, n.len⟩
  readLink _ _ := none
  fileContent t p := do (← FileSystem.openFile t p).readToEnd
  symlink _ _ := throw .notSupported

@[simp] theorem isSome_symlinkMetadata (t : Tree) (p : Path) :
    (symlinkMetadata t p).isSome = (t.get? p).isSome := by
  change ((t.get? p).map _).isSome = _
  rw [Option.isSome_map]

instance : LawfulPhysicalFS Tree where
  existsAt_ok t p := ⟨_, rfl⟩
  symlinkMetadata_of_existsAt t p h := by
    rw [isSome_symlinkMetadata]
    exact Except.ok.inj h
  mem_readDir t d names n h := by
    obtain ⟨-, rfl⟩ := readDir_eq_ok.mp h
    rw [isSome_symlinkMetadata, PathMap.mem_children]
  readDir_of_symlinkMetadata t d n h := by
    rw [isSome_symlinkMetadata] at h
    obtain ⟨node, hnode⟩ := Option.isSome_iff_exists.mp h
    have hdir : t.get? d = some .dir := by simpa using get?_parent (by simp) hnode
    exact ⟨by rw [existsAt_eq, hdir]; rfl, _, readDir_dir hdir⟩

end Tree

end Rspacefs
