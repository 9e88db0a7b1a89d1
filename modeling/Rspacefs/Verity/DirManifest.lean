import Rspacefs.Lib.Walk
import Rspacefs.Verity.Manifest
import Rspacefs.Vfs.Disk

/-!
# The manifest of a directory on disk

`MerkleTree::build_from_dir` of `rspacefs-verity/src/verity.rs`: the walk of `build_from_vfs`
once more, with `read_dir` and `symlink_metadata`. A symbolic link is recorded with its text as
its content, and is not followed.

## Main definitions

* `collectFilesLstat`, `addDiskEntry`, `buildFromDir` — the source's walk and loop

## Main results

* `collectFilesLstat_eq` — the walk finds everything but the directories
-/

namespace Rspacefs

open Lib

namespace MerkleTree

/-- `EntryKind as u8`. -/
def entryKindCode : EntryKind → Nat
  | .file => 0
  | .symlink => 1

/-- `format!("{}:{}:{}", path, size, kind)`. -/
def metaLine (path : Path) (size kind : Nat) : List Char :=
  relPath path ++ ':' :: (Nat.toDigits 10 size ++ ':' :: Nat.toDigits 10 kind)

theorem metaText_eq (path : Path) (md : VfsMetadata) :
    metaText path md = metaLine path md.len (fileTypeCode md.fileType) := rfl

/-- `std::fs::read_dir`. -/
def readDiskDir (t : DiskTree) (dir : Path) : VfsResult (List Name) :=
  if t.get? dir = some .dir then .ok (t.children dir) else .error .ioError

/-- Walk a directory, sorted by name; the first argument counts the stack frames left. Real
directories are entered, links are not. -/
def collectFilesLstat (t : DiskTree) : Nat → Path → VfsResult (List Path)
  | 0, _ => throw .stackOverflow
  | frames + 1, dir => do
    let names ← readDiskDir t dir
    let found ← (names.insertionSort (· ≤ ·)).mapM fun name =>
      if t.get? (dir ++ [name]) = some .dir then collectFilesLstat t frames (dir ++ [name])
      else .ok [dir ++ [name]]
    return found.flatten

/-- What is recorded of an entry: its kind, its content and where a link leads. What is neither
a link nor a file has no content. -/
def diskContent (t : DiskTree) (path : Path) :
    VfsResult (Option (EntryKind × Bytes × Option (List Char))) :=
  match t.get? path with
  | none => .error .fileNotFound
  | some (.link target) => .ok (some (.symlink, utf8 target, some target))
  | some (.file none) => .error .ioError
  | some (.file (some buf)) => .ok (some (.file, buf, none))
  | some .dir | some .special => .ok none

variable (sha256 : Bytes → Hash256)

/-- The loop body of `build_from_dir`: the data so far and the entries so far. -/
def addDiskEntry (t : DiskTree) (acc : Bytes × List FileEntry) (path : Path) :
    VfsResult (Bytes × List FileEntry) := do
  match ← diskContent t path with
  -- sockets, fifos, devices
  | none => return acc
  | some (kind, content, linkTarget) =>
    let blockStart := acc.1.length / blockSize
    let allData := alignBlocks (acc.1 ++ content)
    return (allData, acc.2 ++ [{
      path
      size := content.length
      contentHash := sha256 content
      metadataHash := sha256 (utf8 (metaLine path content.length (entryKindCode kind)))
      blockRange := (blockStart, allData.length / blockSize)
      kind
      linkTarget }])

/-- The data the tree covers, and the entries of the manifest. -/
def diskData (frames : Nat) (t : DiskTree) : VfsResult (Bytes × List FileEntry) := do
  let paths ← collectFilesLstat t frames []
  (sortedKeys paths).foldlM (addDiskEntry sha256 t) ([], [])

/-- Build a Merkle tree from a directory on disk. -/
def buildFromDir (frames : Nat) (t : DiskTree) : VfsResult (MerkleTree × LayerManifest) := do
  let (allData, files) ← diskData sha256 frames t
  let tree := build sha256 allData
  return (tree, {
    files
    manifestHash := sha256 (files.flatMap fun f => f.contentHash.val ++ f.metadataHash.val)
    rootHash := tree.rootHash
    blockSize })

/-! ### What the walk finds -/

variable {sha256} {t : DiskTree} {dir : Path} {frames : Nat}

/-- What the walk meets, in its order. -/
def walked (t : DiskTree) (frames : Nat) (dir : Path) : List (Path × DiskNode) :=
  PathMap.walk t (fun dir => (t.children dir).insertionSort (· ≤ ·)) frames dir

/-- With frames for every directory the walk finds everything but the directories. -/
theorem collectFilesLstat_eq (hdir : t.get? dir = some .dir)
    (hdeep : ∀ p, dir <+: p → (t.get? p).isSome → p.length < dir.length + frames) :
    collectFilesLstat t frames dir =
      .ok (((walked t frames dir).filter (·.2 ≠ .dir)).map (·.1)) := by
  induction frames generalizing dir with
  | zero =>
    have := hdeep dir (List.prefix_refl _) (by rw [hdir]; rfl)
    omega
  | succ frames ih =>
    have hnames : readDiskDir t dir = .ok (t.children dir) := if_pos hdir
    -- each name gives the walk from there
    have hcalls : ∀ name ∈ (t.children dir).insertionSort (· ≤ ·),
        (if t.get? (dir ++ [name]) = some .dir then collectFilesLstat t frames (dir ++ [name])
          else .ok [dir ++ [name]]) = .ok
          ((((t.get? (dir ++ [name])).toList.flatMap fun node =>
            (dir ++ [name], node) :: walked t frames (dir ++ [name])).filter (·.2 ≠ .dir)).map
              (·.1)) := by
      intro name hname
      obtain ⟨node, hnode⟩ := Option.isSome_iff_exists.mp ((t.lists_sorted.mem dir name).mp hname)
      rw [hnode, Option.toList_some, List.flatMap_singleton]
      by_cases hsub : node = .dir
      · subst hsub
        rw [if_pos rfl, ih hnode]
        · simp
        · intro p hbelow hsome
          have := hdeep p ((List.prefix_append _ _).trans hbelow) hsome
          rw [List.length_append, List.length_singleton]
          omega
      · have hnone : walked t frames (dir ++ [name]) = [] :=
          PathMap.walk_of_leaf t.lists_sorted hnode hsub
        have hnot : some node ≠ some DiskNode.dir := fun h => hsub (Option.some.inj h)
        rw [if_neg hnot, hnone]
        simp [hsub]
    rw [collectFilesLstat, hnames, ok_bind, mapM_eq_ok_of_forall hcalls, ok_bind, walked,
      PathMap.walk, List.filter_flatMap, List.map_flatMap, List.flatMap_def]
    rfl

end MerkleTree

end Rspacefs
