import Mathlib.Data.Char
import Mathlib.Data.List.Lex
import Mathlib.Data.List.Sort
import Rspacefs.Lib.Walk
import Rspacefs.Vfs.Physical

/-!
# A directory on disk

What the capture of a PVC and `build_from_dir` walk: a tree of directories, files, symbolic
links and other entries. Links are entries here; nothing is found by following them.

## Main definitions

* `DiskNode`, `DiskTree` — entries and directories; the order in which the entries are stored
  is the order in which they are enumerated
* `DiskTree.Named` — its names are names
* `Node.onDisk` — an entry of a layer without links, on disk
-/

namespace Rspacefs

open Lib

/-- An entry of a directory on disk. -/
inductive DiskNode
  /-- `none` where the file cannot be read. -/
  | file (content : Option Bytes)
  | dir
  | link (target : Target)
  /-- A socket, a fifo or a device. -/
  | special
  deriving DecidableEq, Repr

/-- A directory on disk. -/
abbrev DiskTree := PathMap Name DiskNode (· = .dir)

/-- A new directory. -/
def DiskTree.empty : DiskTree := PathMap.single .dir rfl

@[simp] theorem DiskTree.get?_empty (p : Path) :
    DiskTree.empty.get? p = if p = [] then some .dir else none := PathMap.get?_single _

theorem DiskTree.get?_root (t : DiskTree) : t.get? [] = some .dir := by
  obtain ⟨b, hb, rfl⟩ := t.exists_inner_root
  exact hb

/-- What a directory on disk gives: its names are names. -/
def DiskTree.Named (t : DiskTree) : Prop := ∀ p, (t.get? p).isSome → ∀ n ∈ p, ValidName n

/-- Sorting forgets the order of enumeration. -/
theorem insertionSort_of_perm {l l' : List Name} (h : l.Perm l') :
    l.insertionSort (· ≤ ·) = l'.insertionSort (· ≤ ·) := by
  have hl := List.pairwise_insertionSort (· ≤ ·) l
  have hl' := List.pairwise_insertionSort (· ≤ ·) l'
  apply List.Perm.eq_of_pairwise' hl hl'
  exact (List.perm_insertionSort _ _).trans (h.trans (List.perm_insertionSort _ _).symm)

namespace DiskTree

variable {t : DiskTree}

/-- A directory lists its entries when it lists them sorted. -/
theorem lists_sorted (t : DiskTree) :
    PathMap.Lists t fun dir => (t.children dir).insertionSort (· ≤ ·) where
  mem d a := by rw [List.mem_insertionSort, PathMap.mem_children]
  nodup d := (List.perm_insertionSort _ _).nodup_iff.mpr (PathMap.nodup_children t d)

end DiskTree

/-- An entry of a layer, on disk. -/
def Node.onDisk : Node → DiskNode
  | .file content => .file (some content)
  | .dir => .dir

/-- A directory on disk with the entries of a layer, in whatever order it enumerates them. -/
def OnDisk (t : Tree) (disk : DiskTree) : Prop := ∀ p, disk.get? p = (t.get? p).map Node.onDisk

end Rspacefs
