import Mathlib.Data.List.Chain
import Rspacefs.Verity.ManifestHash

/-!
# Block ranges tile the data

`build_from_vfs` of `rspacefs-verity/src/verity.rs` puts the files end to end, each padded to whole
blocks, and records where each begins and ends. The ranges follow each other without a gap from the
first block to the last, and the leaves of the tree in a range are those of the file alone.

## Main definitions

* `Contiguous` — the ranges so far follow each other up to the end of the data
* `Tiles` — what the manifest of a layer says about the tree

## Main results

* `Contiguous.addFile` — a file is put behind the others
* `buildFromVfs_tiles` — every layer that is built is tiled
-/

namespace Rspacefs

open Lib

namespace MerkleTree

variable {σ : Type} [FileSystem σ] {sha256 : Bytes → Hash256} {layer : σ}
  {acc acc' : Bytes × List FileEntry} {path : Path} {paths : List Path} {frames : Nat}
  {tree : MerkleTree} {mf : LayerManifest}

/-- The ranges so far follow each other, from the first block to the end of the data. -/
structure Contiguous (acc : Bytes × List FileEntry) : Prop where
  aligned : acc.1.length % blockSize = 0
  empty : acc.2 = [] → acc.1 = []
  first : ∀ f, acc.2.head? = some f → f.blockRange.1 = 0
  next : acc.2.IsChain fun f g => g.blockRange.1 = f.blockRange.2
  last : ∀ f, acc.2.getLast? = some f → f.blockRange.2 = acc.1.length / blockSize

/-- The files of the manifest tile the leaves of the tree. -/
structure Tiles (sha256 : Bytes → Hash256) (layer : σ) (tree : MerkleTree)
    (files : List FileEntry) : Prop where
  sorted : (files.map fun f => relPath f.path).Pairwise (· < ·)
  first : ∀ f, files.head? = some f → f.blockRange.1 = 0
  next : files.IsChain fun f g => g.blockRange.1 = f.blockRange.2
  length : ∀ f ∈ files, ∃ c, contentAt layer f.path = .ok c ∧
    f.blockRange.2 = f.blockRange.1 + (c.length + blockSize - 1) / blockSize
  last : ∀ f, files.getLast? = some f → (∃ g ∈ files, contentAt layer g.path ≠ .ok []) →
    f.blockRange.2 = tree.leafCount
  leaf : ∀ f ∈ files, ∀ c, contentAt layer f.path = .ok c →
    ∀ j < f.blockRange.2 - f.blockRange.1,
      tree.nodes[tree.leafNode (f.blockRange.1 + j)]? = some (hashBlock sha256 (block c j))

/-! ### The order -/

/-- Different paths have different texts, so the order of the texts is strict. -/
theorem pairwise_sortedKeys (hnamed : ∀ p ∈ paths, ∀ n ∈ p, ValidName n) :
    ((sortedKeys paths).map relPath).Pairwise (· < ·) := by
  have hsorted : (sortedKeys paths).Pairwise fun p q => relPath p ≤ relPath q :=
    (List.pairwise_insertionSort _ paths).sublist (List.dedup_sublist _)
  have hdistinct : (sortedKeys paths).Pairwise (· ≠ ·) := List.nodup_dedup _
  rw [List.pairwise_map]
  apply (hsorted.and hdistinct).imp_of_mem
  intro p q hp hq horder
  have hp := hnamed p (mem_sortedKeys.mp hp)
  have hq := hnamed q (mem_sortedKeys.mp hq)
  apply lt_of_le_of_ne horder.1
  intro htext
  exact horder.2 (relPath_injective hp hq htext)

/-! ### The ranges -/

theorem contiguous_nil : Contiguous (([], []) : Bytes × List FileEntry) where
  aligned := rfl
  empty _ := rfl
  first _ h := nomatch h
  next := .nil
  last _ h := nomatch h

/-- A file is put behind the others. -/
theorem Contiguous.addFile (h : Contiguous acc)
    (hadd : MerkleTree.addFile sha256 layer acc path = .ok acc') : Contiguous acc' := by
  obtain ⟨md, -, hadd⟩ := except_bind_eq_ok.mp hadd
  obtain ⟨reader, -, hadd⟩ := except_bind_eq_ok.mp hadd
  obtain ⟨buf, -, hadd⟩ := except_bind_eq_ok.mp hadd
  obtain rfl := Except.ok.inj hadd
  constructor
  -- the data stays aligned, so the next file starts with a block of its own
  · exact length_alignBlocks _
  · intro hnone
    cases (List.append_eq_nil_iff.mp hnone).2
  · intro f hf
    cases hfiles : acc.2 with
    | nil =>
      rw [hfiles] at hf
      obtain rfl := Option.some_inj.mp hf
      change acc.1.length / blockSize = 0
      rw [h.empty hfiles]
      rfl
    | cons g files =>
      rw [hfiles] at hf
      apply h.first f
      rw [hfiles]
      exact hf
  · apply h.next.append (List.isChain_singleton _)
    intro f hf g hg
    obtain rfl := Option.some_inj.mp hg
    exact (h.last f hf).symm
  · intro f hf
    rw [List.getLast?_concat] at hf
    obtain rfl := Option.some_inj.mp hf
    rfl

theorem Contiguous.foldlM (h : Contiguous acc)
    (hfold : paths.foldlM (MerkleTree.addFile sha256 layer) acc = .ok acc') : Contiguous acc' := by
  induction paths generalizing acc with
  | nil =>
    obtain rfl := Except.ok.inj hfold
    exact h
  | cons path paths ih =>
    obtain ⟨next, hadd, hfold⟩ := except_bind_eq_ok.mp hfold
    exact ih (h.addFile hadd) hfold

/-! ### The leaves -/

theorem nodes_leafNode {data : Bytes} {i : Nat} (hi : i < blockCount data) :
    (build sha256 data).nodes[(build sha256 data).leafNode i]? =
      some (hashBlock sha256 (block data i)) := by
  have hpadded : i < (build sha256 data).paddedLeafCount := hi.trans_le (leafCount_le sha256 data)
  have hleaf := node_leaf hpadded
  rw [if_pos hi] at hleaf
  have hshape : (build sha256 data).nodes.length + 1 = 2 * (build sha256 data).paddedLeafCount :=
    nodes_length_build data
  have hlt : (build sha256 data).leafNode i < (build sha256 data).nodes.length := by
    unfold leafNode
    omega
  rw [List.getElem?_eq_getElem hlt, ← hleaf, node, List.getD_eq_getElem?_getD,
    List.getElem?_eq_getElem hlt, Option.getD_some]

/-- Data of whole blocks has as many leaves as blocks, if there is any. -/
theorem blockCount_of_aligned {data : Bytes} (h : data.length % blockSize = 0) (hne : data ≠ []) :
    blockCount data = data.length / blockSize := by
  rw [blockCount, if_neg (by simpa using hne)]
  unfold blockSize at *
  omega

/-! ### A file in the data -/

/-- Data with a file that is not empty. -/
theorem Placed.data_ne_nil {data c : Bytes} {f : FileEntry} (h : Placed data f c) (hc : c ≠ []) :
    data ≠ [] := by
  intro hnil
  obtain ⟨pre, post, hdata, -, -⟩ := h
  rw [hnil] at hdata
  have hlength := congrArg List.length hdata
  obtain ⟨n, hn⟩ := alignBlocks_eq c
  rw [hn] at hlength
  simp only [List.length_nil, List.length_append, List.length_replicate] at hlength
  exact hc (List.length_eq_zero_iff.mp (by omega))

/-- The leaves of a file hash its blocks. -/
theorem Placed.leaf {data c : Bytes} {f : FileEntry} (h : Placed data f c) {j : Nat}
    (hj : j < f.blockRange.2 - f.blockRange.1) :
    (build sha256 data).nodes[(build sha256 data).leafNode (f.blockRange.1 + j)]? =
      some (hashBlock sha256 (block c j)) := by
  have hrange := h.range
  have hin : j * blockSize < c.length := by
    have hblocks : j < (c.length + blockSize - 1) / blockSize := by omega
    have hmul := (Nat.lt_div_iff_mul_lt blockSize_pos).mp hblocks
    unfold blockSize at *
    omega
  obtain ⟨hcount, hblock⟩ := block_placed h hin
  rw [nodes_leafNode hcount]
  exact congrArg (fun b => some (sha256 b)) hblock

/-- Every layer that is built is tiled. -/
theorem tiles_of_layerData {data : Bytes} {files : List FileEntry} (hnames : ListsNames layer)
    (h : layerData sha256 frames layer = .ok (data, files)) :
    Tiles sha256 layer (build sha256 data) files := by
  -- the ranges are laid end to end as the files are added
  have hcontiguous : Contiguous (data, files) := by
    obtain ⟨paths, -, hfold⟩ := except_bind_eq_ok.mp h
    exact contiguous_nil.foldlM hfold
  have hplaced : ∀ f ∈ files, ∃ c, contentAt layer f.path = .ok c ∧ Placed data f c := by
    intro f hf
    obtain ⟨md, c, -, hc, -, hplaced⟩ := placed_of_mem h hf
    exact ⟨c, hc, hplaced⟩
  constructor
  · obtain ⟨paths, hpaths, hlisted⟩ := paths_of_layerData h
    have hnamed : ∀ p ∈ paths, ∀ n ∈ p, ValidName n := fun p hp =>
      named_of_collectFiles hnames (fun n hn => absurd hn List.not_mem_nil) hpaths hp
    have hsorted := pairwise_sortedKeys hnamed
    rw [← hlisted, List.map_map] at hsorted
    exact hsorted
  · exact hcontiguous.first
  · exact hcontiguous.next
  · intro f hf
    obtain ⟨c, hc, hf⟩ := hplaced f hf
    exact ⟨c, hc, hf.range⟩
  · intro f hf hsome
    obtain ⟨g, hg, hcontent⟩ := hsome
    obtain ⟨c, hc, hg⟩ := hplaced g hg
    have hne : data ≠ [] := hg.data_ne_nil fun hempty => hcontent (hempty ▸ hc)
    rw [leafCount_build, blockCount_of_aligned hcontiguous.aligned hne]
    exact hcontiguous.last f hf
  · intro f hf c hc j hj
    obtain ⟨c', hc', hf⟩ := hplaced f hf
    obtain rfl := Except.ok.inj (hc'.symm.trans hc)
    exact hf.leaf hj

/-- The manifest of every layer tiles the leaves of its tree. -/
theorem buildFromVfs_tiles (sha256 : Bytes → Hash256) (hnames : ListsNames layer)
    (h : buildFromVfs sha256 frames layer = .ok (tree, mf)) : Tiles sha256 layer tree mf.files := by
  obtain ⟨⟨data, files⟩, hdata, hbuilt⟩ := except_bind_eq_ok.mp h
  obtain ⟨rfl, rfl⟩ := Prod.mk.inj (Except.ok.inj hbuilt)
  exact tiles_of_layerData hnames hdata

/-- Two files have a block each. -/
theorem buildFromVfs_tiles_twoFiles :
    ∃ built, buildFromVfs VerifiedReader.oneByteSha256 8 twoFileLayer = .ok built ∧
      built.2.files.map FileEntry.blockRange = [(0, 1), (1, 2)] ∧
      Tiles VerifiedReader.oneByteSha256 twoFileLayer built.1 built.2.files := by
  have hranges : (buildFromVfs VerifiedReader.oneByteSha256 8 twoFileLayer).toOption.map
      (fun built => built.2.files.map FileEntry.blockRange) = some [(0, 1), (1, 2)] := by
    decide +kernel
  cases hbuilt : buildFromVfs VerifiedReader.oneByteSha256 8 twoFileLayer with
  | error e =>
    rw [hbuilt] at hranges
    cases hranges
  | ok built =>
    rw [hbuilt] at hranges
    exact ⟨built, rfl, Option.some.inj hranges, buildFromVfs_tiles _ listsNames_twoFileLayer hbuilt⟩

end MerkleTree

end Rspacefs
