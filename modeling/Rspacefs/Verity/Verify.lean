import Rspacefs.Lib.Codec
import Rspacefs.Verity.Reader

/-!
# Verifying a directory against a manifest

The `verify` subcommand of `rspacefs-cli/src/main.rs` and `full_check` of
`rspacefs-verity/src/verity.rs`: the tree is built again from the directory, its root is
compared with the one in the manifest, and then the blocks of the directory are checked
against the tree that was just built from them. So the root is all that counts, and it is
the root over the contents put end to end, padded to whole blocks: neither the names nor
the sizes are in it.

## Main definitions

* `fullCheck`, `runVerify` — the source's functions
* `layerFiles` — the files of a layer, in the order of the scan
* `covered` — the bytes that the tree covers

## Main results

* `rootHash_build_eq_iff` — two trees have one root exactly when they cover the same bytes
* `runVerify_eq_ok_iff` — what the subcommand accepts
* `verify_sound_iff` — when it accepts no other layer
-/

namespace Rspacefs

open Lib

namespace MerkleTree

/-! ### The root -/

variable {sha256 : Bytes → Hash256} {data data' : Bytes}

/-- The blocks as they are hashed. -/
def paddedBlocks (data : Bytes) : List Bytes :=
  (List.range (blockCount data)).map fun i => zeroPad (block data i)

theorem build_congr (h : paddedBlocks data = paddedBlocks data') :
    build sha256 data = build sha256 data' := by
  have hcount : blockCount data = blockCount data' := by
    simpa [paddedBlocks] using congrArg List.length h
  have hleaves : ((List.range (blockCount data)).map fun i => hashBlock sha256 (block data i)) =
      (List.range (blockCount data')).map fun i => hashBlock sha256 (block data' i) := by
    simpa [paddedBlocks, hashBlock, Function.comp_def] using congrArg (List.map sha256) h
  rw [hcount] at hleaves
  simp only [build, hcount, hleaves]

theorem block_mem_hashedByBuild {i : Nat} (hi : i < blockCount data) :
    zeroPad (block data i) ∈ hashedByBuild sha256 data :=
  List.mem_append_left _ (List.mem_map.mpr ⟨i, List.mem_range.mpr hi, rfl⟩)

theorem pair_mem_hashedByBuild {j : Nat} (hj : j < (build sha256 data).paddedLeafCount - 1) :
    ((build sha256 data).node (2 * j + 1)).val ++ ((build sha256 data).node (2 * j + 2)).val ∈
      hashedByBuild sha256 data :=
  List.mem_append_right _ (List.mem_map.mpr ⟨j, List.mem_range.mpr hj, rfl⟩)

/-- No input that is hashed has the hash that stands for padding. -/
def NoZeroHash (sha256 : Bytes → Hash256) (l : List Bytes) : Prop := ∀ x ∈ l, sha256 x ≠ zeroHash

/-- The hash of a block of one tree is not the hash of a pair in another. -/
theorem leaf_ne_pair
    (hfree : CollisionFree sha256 (hashedByBuild sha256 data ++ hashedByBuild sha256 data'))
    {i j : Nat} (hi : i < blockCount data) (hj : j < (build sha256 data').paddedLeafCount - 1) :
    hashBlock sha256 (block data i) ≠ (build sha256 data').node j := by
  intro h
  rw [isHeap_build sha256 data' j hj] at h
  have heq := hfree _ (List.mem_append_left _ (block_mem_hashedByBuild hi)) _
    (List.mem_append_right _ (pair_mem_hashedByBuild hj)) h
  exact pair_ne_zeroPad _ _ (length_block_le data i) heq.symm

theorem CollisionFree.symm {l l' : List Bytes} (h : CollisionFree sha256 (l ++ l')) :
    CollisionFree sha256 (l' ++ l) := by
  intro x hx y hy
  exact h x (by simpa [or_comm] using hx) y (by simpa [or_comm] using hy)

/-- The first leaf of a tree is at a leaf of the other: neither is deeper. -/
theorem paddedLeafCount_le_of_root
    (hfree : CollisionFree sha256 (hashedByBuild sha256 data ++ hashedByBuild sha256 data'))
    (hnode : ∀ i, i < 2 * ((build sha256 data).paddedLeafCount - 1) + 1 →
      i < 2 * ((build sha256 data').paddedLeafCount - 1) + 1 →
        (build sha256 data).node i = (build sha256 data').node i) :
    (build sha256 data').paddedLeafCount ≤ (build sha256 data).paddedLeafCount := by
  by_contra hlt
  have hpos := paddedLeafCount_pos sha256 data
  have hleaf := node_leaf hpos
  rw [if_pos (blockCount_pos data), leafNode, Nat.add_zero] at hleaf
  rw [hnode _ (by omega) (by omega)] at hleaf
  exact leaf_ne_pair hfree (blockCount_pos data) (by omega) hleaf.symm

/-- The blocks are read back from the leaves. -/
theorem paddedBlocks_of_leaves
    (hfree : CollisionFree sha256 (hashedByBuild sha256 data ++ hashedByBuild sha256 data'))
    (hzero : NoZeroHash sha256 (hashedByBuild sha256 data ++ hashedByBuild sha256 data'))
    (hpadded : (build sha256 data).paddedLeafCount = (build sha256 data').paddedLeafCount)
    (hleaf : ∀ i < (build sha256 data).paddedLeafCount,
      (build sha256 data).node ((build sha256 data).leafNode i) =
        (build sha256 data').node ((build sha256 data').leafNode i)) :
    paddedBlocks data = paddedBlocks data' := by
  have hle := leafCount_le sha256 data
  have hle' := leafCount_le sha256 data'
  rw [leafCount_build] at hle hle'
  -- a leaf is a block in both or in neither
  have hcount : ∀ i < (build sha256 data).paddedLeafCount,
      i < blockCount data ↔ i < blockCount data' := by
    intro i hi
    have heq := hleaf i hi
    rw [node_leaf hi, node_leaf (hpadded ▸ hi)] at heq
    constructor
    · intro h
      by_contra h'
      rw [if_pos h, if_neg h'] at heq
      exact hzero _ (List.mem_append_left _ (block_mem_hashedByBuild h)) heq
    · intro h'
      by_contra h
      rw [if_neg h, if_pos h'] at heq
      exact hzero _ (List.mem_append_right _ (block_mem_hashedByBuild h')) heq.symm
  have hsame : blockCount data = blockCount data' := by
    by_contra hne
    have hpos := blockCount_pos data
    have hpos' := blockCount_pos data'
    rcases Nat.lt_or_gt_of_ne hne with hlt | hlt
    · have := (hcount (blockCount data) (by omega)).mpr hlt
      omega
    · have := (hcount (blockCount data') (by omega)).mp hlt
      omega
  rw [paddedBlocks, paddedBlocks, ← hsame]
  apply List.map_congr_left
  intro i hi
  have hi := List.mem_range.mp hi
  have heq := hleaf i (by omega)
  rw [node_leaf (by omega), node_leaf (by omega), if_pos hi, if_pos (hsame ▸ hi)] at heq
  exact hfree _ (List.mem_append_left _ (block_mem_hashedByBuild hi)) _
    (List.mem_append_right _ (block_mem_hashedByBuild (hsame ▸ hi))) heq

/-- The root determines the blocks. -/
theorem rootHash_build_eq_iff
    (hfree : CollisionFree sha256 (hashedByBuild sha256 data ++ hashedByBuild sha256 data'))
    (hzero : NoZeroHash sha256 (hashedByBuild sha256 data ++ hashedByBuild sha256 data')) :
    rootHash (build sha256 data) = rootHash (build sha256 data') ↔
      paddedBlocks data = paddedBlocks data' := by
  constructor
  · intro hroot
    have hpairs : ∀ j, j < (build sha256 data).paddedLeafCount - 1 →
        j < (build sha256 data').paddedLeafCount - 1 →
        hashPair sha256 ((build sha256 data).node (2 * j + 1)) ((build sha256 data).node (2 * j + 2)) =
          hashPair sha256 ((build sha256 data').node (2 * j + 1))
            ((build sha256 data').node (2 * j + 2)) →
        (build sha256 data).node (2 * j + 1) = (build sha256 data').node (2 * j + 1) ∧
          (build sha256 data).node (2 * j + 2) = (build sha256 data').node (2 * j + 2) := by
      intro j hj hj' h
      exact Prod.mk.inj (hashPair_inj hfree (List.mem_append_left _ (pair_mem_hashedByBuild hj))
        (List.mem_append_right _ (pair_mem_hashedByBuild hj')) h)
    have hnode : ∀ i, i < 2 * ((build sha256 data).paddedLeafCount - 1) + 1 →
        i < 2 * ((build sha256 data').paddedLeafCount - 1) + 1 →
        (build sha256 data).node i = (build sha256 data').node i := fun i hi hi' =>
      Heap.nodes_eq (isHeap_build sha256 data) (isHeap_build sha256 data') hpairs hroot hi hi'
    have hpadded : (build sha256 data).paddedLeafCount = (build sha256 data').paddedLeafCount :=
      le_antisymm (paddedLeafCount_le_of_root (CollisionFree.symm hfree) fun i hi hi' =>
        (hnode i hi' hi).symm) (paddedLeafCount_le_of_root hfree hnode)
    have hpos := paddedLeafCount_pos sha256 data
    refine paddedBlocks_of_leaves hfree hzero hpadded fun i hi => ?_
    rw [leafNode, leafNode, ← hpadded]
    exact hnode _ (by omega) (by omega)
  · intro h
    rw [build_congr h]

/-- What the tree covers: whole blocks, and one block of zeros where there is nothing. -/
def covered (data : Bytes) : Bytes :=
  if data.isEmpty then List.replicate blockSize 0 else data

theorem paddedBlocks_nil : paddedBlocks [] = [List.replicate blockSize 0] := by
  rw [← zeroPad_nil]
  rfl

theorem paddedBlocks_zeros :
    paddedBlocks (List.replicate blockSize 0) = [List.replicate blockSize 0] := by
  have hcount : blockCount (List.replicate blockSize 0) = 1 := by
    rw [blockCount, if_neg (by rw [List.isEmpty_replicate]; decide), List.length_replicate]
    decide
  have hblock : block (List.replicate blockSize 0) 0 = List.replicate blockSize 0 := by
    rw [block, Nat.zero_mul, List.drop_zero, List.take_replicate, Nat.min_self]
  rw [paddedBlocks, hcount, List.range_one, List.map_singleton, hblock,
    zeroPad_of_length List.length_replicate]

theorem covered_eq (h : data.length % blockSize = 0) :
    covered data = (paddedBlocks data).flatten := by
  unfold covered
  split
  · rename_i hempty
    rw [List.isEmpty_iff.mp hempty, paddedBlocks_nil, List.flatten_singleton]
  · rename_i hne
    have hcount : data.length = blockCount data * blockSize := by
      rw [blockCount, if_neg hne]
      unfold blockSize at *
      omega
    rw [paddedBlocks, ← List.flatMap_def]
    calc data = (List.range (blockCount data)).flatMap (piece blockSize data) :=
          (flatMap_piece hcount).symm
      _ = (List.range (blockCount data)).flatMap fun i => zeroPad (block data i) := by
          apply List.flatMap_congr
          intro i hi
          have hi := List.mem_range.mp hi
          have hlt : (i + 1) * blockSize ≤ data.length := by
            rw [hcount]
            exact Nat.mul_le_mul_right _ hi
          rw [zeroPad_of_length]
          · rfl
          · rw [block, List.length_take, List.length_drop]
            rw [Nat.add_mul] at hlt
            omega

theorem paddedBlocks_covered (data : Bytes) : paddedBlocks (covered data) = paddedBlocks data := by
  unfold covered
  split
  · rename_i h
    rw [List.isEmpty_iff.mp h, paddedBlocks_zeros, paddedBlocks_nil]
  · rfl

theorem paddedBlocks_eq_iff (h : data.length % blockSize = 0) (h' : data'.length % blockSize = 0) :
    paddedBlocks data = paddedBlocks data' ↔ covered data = covered data' := by
  constructor
  · intro heq
    rw [covered_eq h, covered_eq h', heq]
  · intro heq
    rw [← paddedBlocks_covered, heq, paddedBlocks_covered]

/-! ### The files of a layer -/

variable {σ τ : Type} [FileSystem σ] [FileSystem τ]

/-- The files of a layer, in the order in which `build_from_vfs` takes them. -/
def layerFiles (frames : Nat) (layer : σ) : VfsResult (List (Path × Bytes)) := do
  let paths ← collectFiles layer frames []
  (sortedKeys paths).mapM fun path => do return (path, ← contentAt layer path)

/-- Contents put end to end, each on fresh blocks. -/
def concatenated (files : List (Path × Bytes)) : Bytes := files.flatMap fun f => alignBlocks f.2

theorem length_concatenated (files : List (Path × Bytes)) :
    (concatenated files).length % blockSize = 0 := by
  induction files with
  | nil => rfl
  | cons f files ih =>
    rw [concatenated, List.flatMap_cons, List.length_append, Nat.add_mod, length_alignBlocks,
      Nat.zero_add, Nat.mod_mod]
    exact ih

theorem foldlM_addFile {layer : σ} {paths : List Path} {acc acc' : Bytes × List FileEntry}
    (haligned : acc.1.length % blockSize = 0)
    (h : paths.foldlM (addFile sha256 layer) acc = .ok acc') :
    ∃ files, (paths.mapM fun path => do return (path, ← contentAt layer path)) = .ok files ∧
      acc'.1 = acc.1 ++ concatenated files := by
  induction paths generalizing acc with
  | nil =>
    cases h
    exact ⟨[], rfl, (List.append_nil _).symm⟩
  | cons path paths ih =>
    obtain ⟨acc₁, hadd, hfold⟩ := except_bind_eq_ok.mp h
    obtain ⟨md, -, hadd⟩ := except_bind_eq_ok.mp hadd
    obtain ⟨reader, hopen, hadd⟩ := except_bind_eq_ok.mp hadd
    obtain ⟨buf, hread, hadd⟩ := except_bind_eq_ok.mp hadd
    cases hadd
    obtain ⟨files, hfiles, hdata⟩ := ih (length_alignBlocks _) hfold
    have hcontent : contentAt layer path = .ok buf := by rw [contentAt, hopen, ok_bind, hread]
    refine ⟨(path, buf) :: files, ?_, ?_⟩
    · rw [List.mapM_cons, hfiles, hcontent]
      rfl
    · rw [hdata, alignBlocks_append haligned, List.append_assoc]
      rfl

/-- The data of a layer is its files. -/
theorem layerData_eq_ok {frames : Nat} {layer : σ} {entries : List FileEntry}
    (h : layerData sha256 frames layer = .ok (data, entries)) :
    ∃ files, layerFiles frames layer = .ok files ∧ data = concatenated files := by
  obtain ⟨paths, hpaths, hfold⟩ := except_bind_eq_ok.mp h
  have haligned : ([] : Bytes).length % blockSize = 0 := rfl
  obtain ⟨files, hfiles, hdata⟩ := foldlM_addFile haligned hfold
  exact ⟨files, by rw [layerFiles, hpaths]; exact hfiles, hdata⟩

/-- What the walk finds is not a directory. -/
theorem metadata_of_collectFiles {frames : Nat} {layer : σ} {dir path : Path} {paths : List Path}
    (h : collectFiles layer frames dir = .ok paths) (hp : path ∈ paths) :
    ∃ md, metadata layer path = .ok md ∧ md.fileType = .file := by
  induction frames generalizing dir paths with
  | zero => cases h
  | succ frames ih =>
    obtain ⟨names, -, h⟩ := except_bind_eq_ok.mp h
    obtain ⟨found, hfound, h⟩ := except_bind_eq_ok.mp h
    cases h
    obtain ⟨l, hl, hp⟩ := List.mem_flatten.mp hp
    obtain ⟨name, -, hname⟩ := mem_of_mapM_eq_ok hfound hl
    split at hname
    · cases hname
      cases hp
    · rename_i md hmd
      split at hname
      · exact ih hname hp
      · rename_i hfile
        cases hname
        rw [List.mem_singleton.mp hp]
        refine ⟨md, hmd, ?_⟩
        cases htype : md.fileType with
        | file => rfl
        | directory => exact absurd htype hfile

theorem layerData_of_layerFiles {frames : Nat} {layer : σ} {files : List (Path × Bytes)}
    (h : layerFiles frames layer = .ok files) :
    ∃ scanned, layerData sha256 frames layer = .ok scanned := by
  obtain ⟨paths, hpaths, hfiles⟩ := except_bind_eq_ok.mp h
  have hmd : ∀ path ∈ sortedKeys paths, ∃ md, metadata layer path = .ok md := by
    intro path hp
    rw [mem_sortedKeys] at hp
    obtain ⟨md, hmd, -⟩ := metadata_of_collectFiles hpaths hp
    exact ⟨md, hmd⟩
  rw [layerData, hpaths, ok_bind]
  clear h hpaths
  generalize ([], []) = acc
  generalize sortedKeys paths = keys at hmd hfiles
  induction keys generalizing acc files with
  | nil => exact ⟨acc, rfl⟩
  | cons path keys ih =>
    rw [List.mapM_cons] at hfiles
    obtain ⟨f, hf, hfiles⟩ := except_bind_eq_ok.mp hfiles
    obtain ⟨rest, hrest, -⟩ := except_bind_eq_ok.mp hfiles
    obtain ⟨c, hc, -⟩ := except_bind_eq_ok.mp hf
    obtain ⟨reader, hopen, hread⟩ := except_bind_eq_ok.mp hc
    obtain ⟨md, hmd₁⟩ := hmd path List.mem_cons_self
    rw [List.foldlM_cons, addFile_eq acc hmd₁ hopen hread, ok_bind]
    exact ih _ (fun path hp => hmd path (List.mem_cons_of_mem _ hp)) hrest

/-- In a tree the walk finds the files below a directory. -/
theorem mem_collectFiles {frames : Nat} {t : Tree} {dir p : Path} {paths : List Path}
    (h : collectFiles t frames dir = .ok paths) :
    p ∈ paths ↔ dir <+: p ∧ ∃ c, t.get? p = some (.file c) := by
  induction frames generalizing dir paths with
  | zero => cases h
  | succ frames ih =>
    obtain ⟨names, hnames, h⟩ := except_bind_eq_ok.mp h
    obtain ⟨found, hfound, h⟩ := except_bind_eq_ok.mp h
    cases h
    obtain ⟨hdir, rfl⟩ := Tree.readDir_eq_ok.mp hnames
    rw [List.mem_flatten]
    constructor
    · rintro ⟨l, hl, hp⟩
      obtain ⟨name, hname, hcall⟩ := mem_of_mapM_eq_ok hfound hl
      obtain ⟨n, hn⟩ := Option.isSome_iff_exists.mp (PathMap.mem_children.mp hname)
      rw [Tree.metadata_of_some hn] at hcall
      cases n with
      | dir =>
        obtain ⟨hbelow, hfile⟩ := (ih hcall).mp hp
        exact ⟨(List.prefix_append _ _).trans hbelow, hfile⟩
      | file c =>
        cases hcall
        rw [List.mem_singleton.mp hp]
        exact ⟨List.prefix_append _ _, c, hn⟩
    · rintro ⟨⟨rest, rfl⟩, c, hc⟩
      cases rest with
      | nil =>
        rw [List.append_nil, hdir] at hc
        cases hc
      | cons name rest =>
        -- the file is in the call for the child it lies in
        have hbelow : dir ++ [name] <+: dir ++ name :: rest := ⟨rest, by simp⟩
        have hname := PathMap.isSome_of_isPrefix (t := t) hbelow (by rw [hc]; rfl)
        obtain ⟨l, hl, hcall⟩ := exists_of_mapM_eq_ok hfound (PathMap.mem_children.mpr hname)
        refine ⟨l, hl, ?_⟩
        obtain ⟨n, hn⟩ := Option.isSome_iff_exists.mp hname
        rw [Tree.metadata_of_some hn] at hcall
        cases n with
        | dir => exact (ih hcall).mpr ⟨hbelow, c, hc⟩
        | file d =>
          cases hcall
          by_cases heq : dir ++ [name] = dir ++ name :: rest
          · rw [← heq]
            exact List.mem_singleton.mpr rfl
          · -- nothing is below a file
            cases hn.symm.trans (Tree.get?_of_isPrefix hbelow heq hc)

/-- The files of a tree. -/
theorem mem_layerFiles {frames : Nat} {t : Tree} {files : List (Path × Bytes)}
    (h : layerFiles frames t = .ok files) {p : Path} {c : Bytes} :
    (p, c) ∈ files ↔ t.get? p = some (.file c) := by
  obtain ⟨paths, hpaths, hfiles⟩ := except_bind_eq_ok.mp h
  constructor
  · intro hmem
    obtain ⟨path, hpath, hread⟩ := mem_of_mapM_eq_ok hfiles hmem
    obtain ⟨c', hc', heq⟩ := except_bind_eq_ok.mp hread
    cases heq
    rw [mem_sortedKeys] at hpath
    obtain ⟨-, d, hd⟩ := (mem_collectFiles hpaths).mp hpath
    rw [contentAt, Tree.openFile_of_some hd, ok_bind] at hc'
    cases hc'
    exact hd
  · intro hp
    have hmem : p ∈ sortedKeys paths := by
      rw [mem_sortedKeys]
      exact (mem_collectFiles hpaths).mpr ⟨List.nil_prefix, c, hp⟩
    obtain ⟨f, hf, hread⟩ := exists_of_mapM_eq_ok hfiles hmem
    rw [contentAt, Tree.openFile_of_some hp] at hread
    cases hread
    exact hf

/-! ### The check of all blocks -/

/-- One block in `full_check`: the next index, how many were checked, how many failed. -/
def checkBlock (sha256 : Bytes → Hash256) (layer : VerifiedLayer) (acc : Nat × Nat × Nat)
    (buf : Bytes) : Nat × Nat × Nat :=
  (acc.1 + 1, acc.2.1 + 1,
    if verifyBlock sha256 layer.tree acc.1 buf layer.rootHash then acc.2.2 else acc.2.2 + 1)

/-- What `read` gives, a block at a time, until there is no more. -/
def readBlocks (content : Bytes) : List Bytes :=
  (List.range ((content.length + blockSize - 1) / blockSize)).map (block content)

/-- The blocks of one file, and the padding blocks behind it. -/
def checkFile (sha256 : Bytes → Hash256) (layer : VerifiedLayer) (inner : σ) (counts : Nat × Nat)
    (entry : FileEntry) : VfsResult (Nat × Nat) := do
  let content ← contentAt inner entry.path
  let acc := (readBlocks content).foldl (checkBlock sha256 layer) (entry.blockRange.1, counts)
  let padding := List.replicate (entry.blockRange.2 - acc.1) []
  return (padding.foldl (checkBlock sha256 layer) acc).2

/-- `full_check`: how many blocks were checked, and how many failed. -/
def fullCheck (sha256 : Bytes → Hash256) (layer : VerifiedLayer) (inner : σ) :
    VfsResult (Nat × Nat) :=
  layer.manifest.files.foldlM (checkFile sha256 layer inner) (0, 0)

theorem foldl_checkBlock {layer : VerifiedLayer} {bufs : List Bytes} {start checked failed : Nat}
    (h : ∀ i (hi : i < bufs.length),
      verifyBlock sha256 layer.tree (start + i) bufs[i] layer.rootHash = true) :
    bufs.foldl (checkBlock sha256 layer) (start, checked, failed) =
      (start + bufs.length, checked + bufs.length, failed) := by
  induction bufs generalizing start checked with
  | nil => rfl
  | cons buf bufs ih =>
    have hfirst := h 0 (Nat.succ_pos _)
    rw [List.foldl_cons, checkBlock]
    simp only [Nat.add_zero, List.getElem_cons_zero] at hfirst
    rw [if_pos hfirst, ih]
    · simp only [List.length_cons, Prod.mk.injEq, and_true]
      omega
    · intro i hi
      have := h (i + 1) (Nat.succ_lt_succ hi)
      rwa [List.getElem_cons_succ, show start + (i + 1) = start + 1 + i by omega] at this

/-- A block of the data passes at its index, under the tree of the data. -/
theorem verifyBlock_build {i : Nat} {b : Bytes} (hi : i < blockCount data)
    (hb : zeroPad b = zeroPad (block data i)) :
    verifyBlock sha256 (build sha256 data) i b (rootHash (build sha256 data)) = true := by
  have hle := leafCount_le sha256 data
  rw [leafCount_build] at hle
  rw [verifyBlock, if_neg (by omega), decide_eq_true_iff, hashBlock, hb]
  exact climb_block hi fun _ _ => rfl

/-- The blocks of a file that lies in the data pass. -/
theorem checkFile_placed {layer : VerifiedLayer} {inner : σ} {entry : FileEntry} {c : Bytes}
    (checked failed : Nat) (htree : layer.tree = build sha256 data)
    (hroot : layer.rootHash = rootHash (build sha256 data))
    (hcontent : contentAt inner entry.path = .ok c) (hplaced : Placed data entry c) :
    ∃ n, checkFile sha256 layer inner (checked, failed) entry = .ok (n, failed) := by
  have hcount : entry.blockRange.2 = entry.blockRange.1 + (readBlocks c).length := by
    rw [hplaced.range, readBlocks, List.length_map, List.length_range]
  rw [checkFile, hcontent, ok_bind, foldl_checkBlock]
  · simp only
    rw [hcount, Nat.sub_self]
    exact ⟨_, rfl⟩
  · intro i hi
    rw [readBlocks, List.length_map, List.length_range] at hi
    have hlt : i * blockSize < c.length := by
      unfold blockSize at *
      omega
    obtain ⟨hindex, hblock⟩ := block_placed hplaced hlt
    rw [htree, hroot]
    apply verifyBlock_build hindex
    simp only [readBlocks, List.getElem_map, List.getElem_range]
    exact hblock.symm

theorem foldlM_checkFile {layer : VerifiedLayer} {inner : σ} {files : List FileEntry}
    {checked failed : Nat} (htree : layer.tree = build sha256 data)
    (hroot : layer.rootHash = rootHash (build sha256 data))
    (hplaced : ∀ f ∈ files, ∃ c, contentAt inner f.path = .ok c ∧ Placed data f c) :
    ∃ n, files.foldlM (checkFile sha256 layer inner) (checked, failed) = .ok (n, failed) := by
  induction files generalizing checked with
  | nil => exact ⟨checked, rfl⟩
  | cons f files ih =>
    obtain ⟨c, hc, hf⟩ := hplaced f List.mem_cons_self
    obtain ⟨n, hn⟩ := checkFile_placed checked failed htree hroot hc hf
    rw [List.foldlM_cons, hn, ok_bind]
    exact ih fun f hf => hplaced f (List.mem_cons_of_mem _ hf)

/-- A layer passes the check against its own tree. -/
theorem fullCheck_own {frames : Nat} {inner : σ} {entries : List FileEntry} {layer : VerifiedLayer}
    (hdata : layerData sha256 frames inner = .ok (data, entries))
    (htree : layer.tree = build sha256 data) (hroot : layer.rootHash = rootHash (build sha256 data))
    (hfiles : layer.manifest.files = entries) :
    ∃ checked, fullCheck sha256 layer inner = .ok (checked, 0) := by
  apply foldlM_checkFile htree hroot
  intro f hf
  obtain ⟨-, c, -, hc, -, hplaced⟩ := placed_of_mem hdata (hfiles ▸ hf)
  exact ⟨c, hc, hplaced⟩

/-! ### The subcommand -/

inductive CliError
  /-- `scanning directory: {e}`. -/
  | scanning (e : VfsError)
  /-- `ROOT HASH MISMATCH`. -/
  | rootHashMismatch
  /-- `running full_check: {e}`. -/
  | fullCheck (e : VfsError)
  /-- `verification failed for {failed} blocks`. -/
  | failedBlocks (failed : Nat)
  deriving DecidableEq, Repr

/-- `verity verify`: how many blocks it reports as checked and as failed. -/
def runVerify (sha256 : Bytes → Hash256) (frames : Nat) (dir : σ) (mf : LayerManifest)
    (warnOnly : Bool) : Except CliError (Nat × Nat) :=
  match buildFromVfs sha256 frames dir with
  | .error e => .error (.scanning e)
  | .ok (rebuilt, currentMf) =>
    if rebuilt.rootHash ≠ mf.rootHash ∧ !warnOnly then .error .rootHashMismatch
    else
      let verified : VerifiedLayer :=
        ⟨rebuilt, currentMf, mf.rootHash, if warnOnly then .warn else .reject⟩
      match fullCheck sha256 verified dir with
      | .error e => .error (.fullCheck e)
      | .ok (checked, failed) =>
        if 0 < failed ∧ !warnOnly then .error (.failedBlocks failed) else .ok (checked, failed)

/-- It is the root that decides: the check of the blocks cannot fail after it. -/
theorem runVerify_eq_ok_iff {frames : Nat} {dir : σ} {mf : LayerManifest} :
    (∃ counts, runVerify sha256 frames dir mf false = .ok counts) ↔
      ∃ data entries, layerData sha256 frames dir = .ok (data, entries) ∧
        rootHash (build sha256 data) = mf.rootHash := by
  unfold runVerify buildFromVfs
  cases hdata : layerData sha256 frames dir with
  | error e => simp [bind, Except.bind]
  | ok scanned =>
    obtain ⟨data, entries⟩ := scanned
    simp only [ok_bind, pure, Except.pure, Bool.not_false, and_true, ne_eq]
    constructor
    · rintro ⟨counts, h⟩
      refine ⟨data, entries, rfl, ?_⟩
      by_contra hne
      rw [if_pos hne] at h
      cases h
    · rintro ⟨_, _, ⟨⟩, hroot⟩
      rw [if_neg (not_not.mpr hroot)]
      have hown : ∃ checked, fullCheck sha256 ⟨build sha256 data, ⟨entries,
          sha256 (entries.flatMap fun f => f.contentHash.val ++ f.metadataHash.val),
          rootHash (build sha256 data), blockSize⟩, mf.rootHash, .reject⟩ dir = .ok (checked, 0) :=
        fullCheck_own hdata rfl hroot.symm rfl
      obtain ⟨checked, hcheck⟩ := hown
      exact ⟨(checked, 0), by simp [hcheck]⟩

/-- Two layers have the same files, each with the same bytes. -/
def SameLayer (frames : Nat) (layer : σ) (frames' : Nat) (dir : τ) : Prop :=
  ∃ files files', layerFiles frames layer = .ok files ∧ layerFiles frames' dir = .ok files' ∧
    ∀ f, f ∈ files ↔ f ∈ files'

/-- The padded contents of two layers, put end to end, are the same bytes. -/
def SameBytes (frames : Nat) (layer : σ) (frames' : Nat) (dir : τ) : Prop :=
  ∃ files files', layerFiles frames layer = .ok files ∧ layerFiles frames' dir = .ok files' ∧
    covered (concatenated files) = covered (concatenated files')

/-- What is hashed when the trees of two layers are built, if they can be read. -/
def Hashed (sha256 : Bytes → Hash256) (frames : Nat) (layer : σ) (frames' : Nat) (dir : τ)
    (l : List Bytes) : Prop :=
  ∃ data entries data' entries', layerData sha256 frames layer = .ok (data, entries) ∧
    layerData sha256 frames' dir = .ok (data', entries') ∧
    l = hashedByBuild sha256 data ++ hashedByBuild sha256 data'

/-- What is accepted is what has the same bytes end to end. -/
theorem accepts_iff_sameBytes {frames frames' : Nat} {layer : σ} {dir : τ} {tree : MerkleTree}
    {mf : LayerManifest} (hbuild : buildFromVfs sha256 frames layer = .ok (tree, mf))
    (hfree : ∀ l, Hashed sha256 frames layer frames' dir l → CollisionFree sha256 l)
    (hzero : ∀ l, Hashed sha256 frames layer frames' dir l → NoZeroHash sha256 l) :
    (∃ counts, runVerify sha256 frames' dir mf false = .ok counts) ↔
      SameBytes frames layer frames' dir := by
  obtain ⟨⟨data, entries⟩, hdata, hbuild⟩ := except_bind_eq_ok.mp hbuild
  cases hbuild
  obtain ⟨files, hfiles, rfl⟩ := layerData_eq_ok hdata
  have hroots : ∀ data' entries', layerData sha256 frames' dir = .ok (data', entries') →
      (rootHash (build sha256 data') = rootHash (build sha256 (concatenated files)) ↔
        paddedBlocks (concatenated files) = paddedBlocks data') := by
    intro data' entries' hdata'
    have hhashed : Hashed sha256 frames layer frames' dir _ :=
      ⟨_, entries, data', entries', hdata, hdata', rfl⟩
    rw [eq_comm]
    exact rootHash_build_eq_iff (hfree _ hhashed) (hzero _ hhashed)
  -- only the root of the rebuilt tree counts
  rw [runVerify_eq_ok_iff]
  constructor
  · rintro ⟨data', entries', hdata', hroot⟩
    obtain ⟨files', hfiles', rfl⟩ := layerData_eq_ok hdata'
    refine ⟨files, files', hfiles, hfiles', ?_⟩
    rw [← paddedBlocks_eq_iff (length_concatenated _) (length_concatenated _)]
    exact (hroots _ _ hdata').mp hroot
  · rintro ⟨_, files', hfiles₁, hfiles', heq⟩
    cases hfiles.symm.trans hfiles₁
    have hscanned : ∃ scanned, layerData sha256 frames' dir = .ok scanned :=
      layerData_of_layerFiles hfiles'
    obtain ⟨⟨data', entries'⟩, hdata'⟩ := hscanned
    obtain ⟨files₂, hfiles₂, rfl⟩ := layerData_eq_ok hdata'
    cases hfiles'.symm.trans hfiles₂
    refine ⟨_, entries', hdata', (hroots _ _ hdata').mpr ?_⟩
    rwa [paddedBlocks_eq_iff (length_concatenated _) (length_concatenated _)]

/-- The subcommand accepts only the layer of the manifest exactly if: where the padded contents
of the two, put end to end, are the same bytes, they are the same files. -/
theorem verify_sound_iff {frames frames' : Nat} {layer : σ} {dir : τ} {tree : MerkleTree}
    {mf : LayerManifest} (hbuild : buildFromVfs sha256 frames layer = .ok (tree, mf))
    (hfree : ∀ l, Hashed sha256 frames layer frames' dir l → CollisionFree sha256 l)
    (hzero : ∀ l, Hashed sha256 frames layer frames' dir l → NoZeroHash sha256 l) :
    ((∃ counts, runVerify sha256 frames' dir mf false = .ok counts) →
        SameLayer frames layer frames' dir) ↔
      (SameBytes frames layer frames' dir → SameLayer frames layer frames' dir) := by
  rw [accepts_iff_sameBytes hbuild hfree hzero]

/-! ### A file under another name, and another file -/

open VerifiedReader

/-- A layer with the same file under the name `g`. -/
def renamedLayer : Tree := Tree.ofEntries [(["g".toList], .file [1])]

/-- A layer with another file. -/
def otherLayer : Tree := Tree.ofEntries [(["f".toList], .file [2])]

def otherDigest : Hash256 :=
  ⟨[219, 193, 180, 201, 0, 255, 228, 141, 87, 91, 93, 165, 198, 56, 4, 1, 37, 246, 93, 176, 254,
    62, 36, 73, 75, 118, 234, 152, 100, 87, 217, 134], rfl⟩

def renamedMetaDigest : Hash256 :=
  ⟨[18, 229, 91, 133, 176, 71, 160, 249, 107, 210, 174, 169, 46, 93, 217, 49, 46, 239, 137, 107,
    164, 197, 165, 175, 76, 86, 169, 241, 73, 200, 112, 221], rfl⟩

def renamedManifestDigest : Hash256 :=
  ⟨[7, 250, 24, 163, 16, 255, 124, 64, 160, 36, 196, 21, 6, 115, 84, 221, 205, 1, 231, 125, 39, 250,
    24, 133, 106, 145, 102, 66, 223, 34, 186, 141], rfl⟩

def otherManifestDigest : Hash256 :=
  ⟨[78, 231, 248, 106, 149, 5, 231, 57, 129, 97, 35, 88, 189, 130, 47, 143, 174, 33, 115, 206, 22,
    134, 39, 252, 92, 114, 115, 220, 213, 53, 114, 34], rfl⟩

/-- SHA-256 on the inputs of the three layers. -/
def threeSha256 (x : Bytes) : Hash256 :=
  if x = [2] then otherDigest
  else if x = utf8 "g:1:0".toList then renamedMetaDigest
  else if x = oneByteDigest.val ++ renamedMetaDigest.val then renamedManifestDigest
  else if x = otherDigest.val ++ oneByteMetaDigest.val then otherManifestDigest
  else oneByteSha256 x

theorem buildFromVfs_three :
    buildFromVfs threeSha256 8 oneByteLayer = .ok (⟨[secondDigest], 1, 1⟩, oneByteManifest) := by
  decide +kernel

theorem buildFromVfs_renamed :
    ∃ mf, buildFromVfs threeSha256 8 renamedLayer = .ok (⟨[secondDigest], 1, 1⟩, mf) :=
  ⟨⟨[⟨["g".toList], 1, oneByteDigest, renamedMetaDigest, (0, 1), .file, none⟩],
    renamedManifestDigest, secondDigest, blockSize⟩, by decide +kernel⟩

/-- One block is all that is hashed. -/
theorem hashedByBuild_block (h : data.length = blockSize) : hashedByBuild sha256 data = [data] := by
  have hne : data.isEmpty = false := by
    rw [List.isEmpty_eq_false_iff, ← List.length_pos_iff, h]
    decide
  have hcount : blockCount data = 1 := by
    rw [blockCount, hne, if_neg Bool.false_ne_true, h]
    decide
  have hblock : zeroPad (block data 0) = data := by
    rw [block, Nat.zero_mul, List.drop_zero, List.take_of_length_le (le_of_eq h),
      zeroPad_of_length h]
  simp [hashedByBuild, hcount, hblock, nextPowerOfTwo]

theorem layerFiles_oneByte : layerFiles 8 oneByteLayer = .ok [(["f".toList], [1])] := rfl

theorem layerFiles_other : layerFiles 8 otherLayer = .ok [(["f".toList], [2])] := rfl

theorem concatenated_one (path : Path) (c : Bytes) : concatenated [(path, c)] = alignBlocks c :=
  List.flatMap_singleton ..

theorem length_alignBlocks_one (b : UInt8) : (alignBlocks [b]).length = blockSize := by
  rw [alignBlocks, if_neg (by rw [List.length_singleton]; decide), List.length_append,
    List.length_replicate, List.length_singleton]
  decide

theorem hashed_other {l : List Bytes} (h : Hashed threeSha256 8 oneByteLayer 8 otherLayer l) :
    l = [alignBlocks [1], alignBlocks [2]] := by
  obtain ⟨data, entries, data', entries', hdata, hdata', rfl⟩ := h
  obtain ⟨files, hfiles, rfl⟩ := layerData_eq_ok hdata
  obtain ⟨files', hfiles', rfl⟩ := layerData_eq_ok hdata'
  cases layerFiles_oneByte.symm.trans hfiles
  cases layerFiles_other.symm.trans hfiles'
  rw [concatenated_one, concatenated_one, hashedByBuild_block (length_alignBlocks_one 1),
    hashedByBuild_block (length_alignBlocks_one 2), List.singleton_append]

theorem other_not_accepted :
    ¬ ∃ counts, runVerify threeSha256 8 otherLayer oneByteManifest false = .ok counts := by
  intro haccepted
  have hlayer : SameLayer 8 oneByteLayer 8 otherLayer := by
    refine (verify_sound_iff buildFromVfs_three ?_ ?_).mpr ?_ haccepted
    · intro l hl
      rw [hashed_other hl]
      exact CollisionFree.of_nodup (by decide +kernel) fun x hx => hx
    · intro l hl
      rw [hashed_other hl]
      unfold NoZeroHash
      decide +kernel
    · rintro ⟨files, files', hfiles, hfiles', heq⟩
      cases layerFiles_oneByte.symm.trans hfiles
      cases layerFiles_other.symm.trans hfiles'
      rw [concatenated_one, concatenated_one] at heq
      have hhead : (covered (alignBlocks [1])).head? ≠ (covered (alignBlocks [2])).head? := by
        decide +kernel
      exact absurd (congrArg List.head? heq) hhead
  obtain ⟨files, files', hfiles, hfiles', hsame⟩ := hlayer
  have hfile : (["f".toList], [1]) ∈ files := (mem_layerFiles hfiles).mpr rfl
  have hother := (mem_layerFiles hfiles').mp ((hsame _).mp hfile)
  exact absurd hother (by decide)

/-- The layer with the file renamed is accepted. -/
theorem renamed_accepted :
    (∃ counts, runVerify threeSha256 8 renamedLayer oneByteManifest false = .ok counts) ∧
      ¬ SameLayer 8 oneByteLayer 8 renamedLayer := by
  constructor
  · obtain ⟨mf, hmf⟩ := buildFromVfs_renamed
    obtain ⟨⟨data, entries⟩, hdata, hbuild⟩ := except_bind_eq_ok.mp hmf
    have hroot := congrArg rootHash (Prod.mk.inj (Except.ok.inj hbuild)).1
    exact runVerify_eq_ok_iff.mpr ⟨data, entries, hdata, hroot⟩
  · rintro ⟨files, files', hfiles, hfiles', hsame⟩
    have hfile : (["f".toList], [1]) ∈ files := (mem_layerFiles hfiles).mpr rfl
    have hother := (mem_layerFiles hfiles').mp ((hsame _).mp hfile)
    exact absurd hother (by decide)

end MerkleTree

end Rspacefs
