import Mathlib.Data.Char
import Mathlib.Data.List.Sort
import Mathlib.Data.List.Dedup
import Mathlib.Data.List.Lex
import Mathlib.Data.Nat.ModEq
import Rspacefs.Lib.Cursor
import Rspacefs.Verity.Merkle

/-!
# The manifest of a layer

`MerkleTree::build_from_vfs` of `rspacefs-verity/src/verity.rs`: every file of a layer, in
the order of the texts of the paths, padded to whole blocks and put end to end. The
Merkle tree is built over the result, and the manifest says where each file lies in it.

## Main definitions

* `FileEntry`, `LayerManifest` — the manifest
* `collectFiles`, `addFile`, `buildFromVfs` — the source's walk and loop
* `Placed` — a file lies at its block range in the data of the layer

## Main results

* `placed_of_mem` — every entry of the manifest is the content of its file, in place
* `block_placed` — the blocks of a file are blocks of the data, up to zero padding
-/

namespace Rspacefs

open Lib

/-- What kind of filesystem entry a `FileEntry` describes. -/
inductive EntryKind
  | file
  | symlink
  deriving DecidableEq, Repr

/-- Per-file entry in the layer manifest. -/
structure FileEntry where
  path : Path
  size : Nat
  contentHash : Hash256
  metadataHash : Hash256
  /-- Block range `[start, end)` in the data the Merkle tree covers. -/
  blockRange : Nat × Nat
  kind : EntryKind
  linkTarget : Option (List Char)
  deriving DecidableEq

/-- Manifest describing all files in a verified layer. -/
structure LayerManifest where
  files : List FileEntry
  manifestHash : Hash256
  rootHash : Hash256
  blockSize : Nat
  deriving DecidableEq

namespace MerkleTree

/-- The bytes of a text. -/
def utf8 (text : List Char) : Bytes := text.flatMap String.utf8EncodeChar

/-- The text of a path in the manifest: components with slashes in between. -/
def relPath (path : Path) : List Char := (render path).drop 1

/-- `VfsFileType as u8`. -/
def fileTypeCode : VfsFileType → Nat
  | .file => 0
  | .directory => 1

/-- `format!("{}:{}:{}", path, size, file_type)`. -/
def metaText (path : Path) (md : VfsMetadata) : List Char :=
  relPath path ++ ':' :: (Nat.toDigits 10 md.len ++ ':' :: Nat.toDigits 10 (fileTypeCode md.fileType))

/-- Pad to a block boundary so each file starts on a fresh block. -/
def alignBlocks (data : Bytes) : Bytes :=
  if data.length % blockSize = 0 then data
  else data ++ List.replicate (blockSize - data.length % blockSize) 0

variable {σ : Type} [FileSystem σ] (sha256 : Bytes → Hash256)

/-- Recursively collect all files; the first argument counts the stack frames left. An
entry without metadata is skipped. -/
def collectFiles (layer : σ) : Nat → Path → VfsResult (List Path)
  | 0, _ => throw .stackOverflow
  | frames + 1, dir => do
    let names ← readDir layer dir
    let found ← names.mapM fun name =>
      match metadata layer (dir ++ [name]) with
      | .error _ => .ok []
      | .ok md =>
        if md.fileType = .directory then collectFiles layer frames (dir ++ [name])
        else .ok [dir ++ [name]]
    return found.flatten

/-- The keys of the `BTreeMap`: sorted by their texts, each once. -/
def sortedKeys (paths : List Path) : List Path :=
  (paths.insertionSort fun p q => relPath p ≤ relPath q).dedup

@[simp] theorem mem_sortedKeys {paths : List Path} {p : Path} :
    p ∈ sortedKeys paths ↔ p ∈ paths := by
  rw [sortedKeys, List.mem_dedup, List.mem_insertionSort]

/-- The loop body of `build_from_vfs`: the data so far and the entries so far. -/
def addFile (layer : σ) (acc : Bytes × List FileEntry) (path : Path) :
    VfsResult (Bytes × List FileEntry) := do
  let md ← metadata layer path
  let blockStart := acc.1.length / blockSize
  let reader ← openFile layer path
  let buf ← reader.readToEnd
  let allData := alignBlocks (acc.1 ++ buf)
  return (allData, acc.2 ++ [{
    path
    size := md.len
    contentHash := sha256 buf
    metadataHash := sha256 (utf8 (metaText path md))
    blockRange := (blockStart, allData.length / blockSize)
    kind := .file
    linkTarget := none }])

/-- The data the tree covers, and the entries of the manifest. -/
def layerData (frames : Nat) (layer : σ) : VfsResult (Bytes × List FileEntry) := do
  let paths ← collectFiles layer frames []
  (sortedKeys paths).foldlM (addFile sha256 layer) ([], [])

/-- Build a Merkle tree by reading files from a VFS directory tree. -/
def buildFromVfs (frames : Nat) (layer : σ) : VfsResult (MerkleTree × LayerManifest) := do
  let (allData, files) ← layerData sha256 frames layer
  let tree := build sha256 allData
  return (tree, {
    files
    manifestHash := sha256 (files.flatMap fun f => f.contentHash.val ++ f.metadataHash.val)
    rootHash := tree.rootHash
    blockSize })

/-! ### Where the files lie -/

variable {sha256} {layer : σ} {data pre : Bytes}

theorem blockSize_pos : 0 < blockSize := by decide

theorem length_alignBlocks (data : Bytes) : (alignBlocks data).length % blockSize = 0 := by
  unfold alignBlocks
  split
  · assumption
  · have hlt := Nat.mod_lt data.length blockSize_pos
    rw [List.length_append, List.length_replicate, Nat.add_mod]
    unfold blockSize at *
    omega

theorem alignBlocks_append (h : pre.length % blockSize = 0) :
    alignBlocks (pre ++ data) = pre ++ alignBlocks data := by
  have hmod : (pre ++ data).length % blockSize = data.length % blockSize := by
    rw [List.length_append, Nat.add_mod, h, Nat.zero_add, Nat.mod_mod]
  unfold alignBlocks
  rw [hmod]
  split
  · rfl
  · rw [List.append_assoc]

/-- A file takes as many blocks as it has pieces, the last of which may be shorter. -/
theorem blocks_alignBlocks (c : Bytes) :
    (alignBlocks c).length / blockSize = (c.length + blockSize - 1) / blockSize := by
  unfold alignBlocks
  split
  · unfold blockSize at *
    omega
  · rw [List.length_append, List.length_replicate]
    unfold blockSize at *
    omega

/-- The file with content `c` lies at the block range of its entry. -/
def Placed (allData : Bytes) (f : FileEntry) (c : Bytes) : Prop :=
  ∃ pre post, allData = pre ++ alignBlocks c ++ post ∧
    pre.length = f.blockRange.1 * blockSize ∧
    f.blockRange.2 = f.blockRange.1 + (alignBlocks c).length / blockSize

theorem Placed.append {f : FileEntry} {c allData : Bytes} (h : Placed allData f c) (post : Bytes) :
    Placed (allData ++ post) f c := by
  obtain ⟨pre, post', rfl, hpre, hend⟩ := h
  exact ⟨pre, post' ++ post, by rw [List.append_assoc], hpre, hend⟩

/-- The block range of a file is as long as the file. -/
theorem Placed.range {f : FileEntry} {c : Bytes} (h : Placed data f c) :
    f.blockRange.2 = f.blockRange.1 + (c.length + blockSize - 1) / blockSize := by
  obtain ⟨-, -, -, -, hend⟩ := h
  rw [hend, blocks_alignBlocks]

/-- What the entries so far say, and that the data so far is whole blocks. -/
structure Scanned (layer : σ) (acc : Bytes × List FileEntry) : Prop where
  aligned : acc.1.length % blockSize = 0
  placed : ∀ f ∈ acc.2, ∃ md c, metadata layer f.path = .ok md ∧ contentAt layer f.path = .ok c ∧
    f.size = md.len ∧ Placed acc.1 f c

/-- One turn of the loop that does not fail. -/
theorem addFile_eq (acc : Bytes × List FileEntry) {path : Path} {md : VfsMetadata} {reader : Reader}
    {buf : Bytes} (hmd : metadata layer path = .ok md) (hopen : openFile layer path = .ok reader)
    (hread : reader.readToEnd = .ok buf) :
    addFile sha256 layer acc path = .ok (alignBlocks (acc.1 ++ buf), acc.2 ++ [
      ⟨path, md.len, sha256 buf, sha256 (utf8 (metaText path md)),
        (acc.1.length / blockSize, (alignBlocks (acc.1 ++ buf)).length / blockSize), .file,
        none⟩]) := by
  rw [addFile, hmd, ok_bind, hopen, ok_bind, hread, ok_bind]
  rfl

theorem Scanned.addFile {acc acc' : Bytes × List FileEntry} (h : Scanned layer acc) {path : Path}
    (hadd : addFile sha256 layer acc path = .ok acc') : Scanned layer acc' := by
  obtain ⟨md, hmd, hadd⟩ := except_bind_eq_ok.mp hadd
  obtain ⟨reader, hopen, hadd⟩ := except_bind_eq_ok.mp hadd
  obtain ⟨buf, hread, hadd⟩ := except_bind_eq_ok.mp hadd
  obtain rfl := Except.ok.inj hadd
  have hdata : alignBlocks (acc.1 ++ buf) = acc.1 ++ alignBlocks buf :=
    alignBlocks_append h.aligned
  refine ⟨length_alignBlocks _, fun f hf => ?_⟩
  rcases List.mem_append.mp hf with hf | hf
  · obtain ⟨md', c, hmd', hc, hsize, hplaced⟩ := h.placed f hf
    refine ⟨md', c, hmd', hc, hsize, ?_⟩
    rw [hdata]
    exact hplaced.append _
  · obtain rfl := List.mem_singleton.mp hf
    have hcontent : contentAt layer path = .ok buf := by
      rw [contentAt, hopen, ok_bind, hread]
    have hstart : acc.1.length / blockSize * blockSize = acc.1.length :=
      Nat.div_mul_cancel (Nat.dvd_of_mod_eq_zero h.aligned)
    refine ⟨md, buf, hmd, hcontent, rfl, acc.1, [], by rw [hdata, List.append_nil], hstart.symm, ?_⟩
    change (alignBlocks (acc.1 ++ buf)).length / blockSize = _
    rw [hdata, List.length_append, Nat.add_div_of_dvd_right (Nat.dvd_of_mod_eq_zero h.aligned)]

theorem Scanned.foldlM {paths : List Path} {acc acc' : Bytes × List FileEntry}
    (h : Scanned layer acc) (hfold : paths.foldlM (MerkleTree.addFile sha256 layer) acc = .ok acc') :
    Scanned layer acc' := by
  induction paths generalizing acc with
  | nil =>
    obtain rfl := Except.ok.inj hfold
    exact h
  | cons path paths ih =>
    obtain ⟨acc₁, hadd, hfold⟩ := except_bind_eq_ok.mp hfold
    exact ih (h.addFile hadd) hfold

/-- Every entry of the manifest is the content of its file, in place. -/
theorem placed_of_mem {frames : Nat} {allData : Bytes} {files : List FileEntry} {f : FileEntry}
    (h : layerData sha256 frames layer = .ok (allData, files)) (hf : f ∈ files) :
    ∃ md c, metadata layer f.path = .ok md ∧ contentAt layer f.path = .ok c ∧ f.size = md.len ∧
      Placed allData f c := by
  obtain ⟨paths, -, hfold⟩ := except_bind_eq_ok.mp h
  have hstart : Scanned layer (([], []) : Bytes × List FileEntry) :=
    ⟨rfl, fun f hf => nomatch hf⟩
  exact (hstart.foldlM hfold).placed f hf

theorem foldlM_addFile_paths {paths : List Path} {acc acc' : Bytes × List FileEntry}
    (hfold : paths.foldlM (addFile sha256 layer) acc = .ok acc') :
    acc'.2.map (·.path) = acc.2.map (·.path) ++ paths := by
  induction paths generalizing acc with
  | nil =>
    obtain rfl := Except.ok.inj hfold
    rw [List.append_nil]
  | cons path paths ih =>
    obtain ⟨acc₁, hadd, hfold⟩ := except_bind_eq_ok.mp hfold
    obtain ⟨md, -, hadd⟩ := except_bind_eq_ok.mp hadd
    obtain ⟨reader, -, hadd⟩ := except_bind_eq_ok.mp hadd
    obtain ⟨buf, -, hadd⟩ := except_bind_eq_ok.mp hadd
    obtain rfl := Except.ok.inj hadd
    rw [ih hfold, List.map_append, List.append_assoc]
    rfl

/-- The manifest lists the files that the walk found, in the order of their texts. -/
theorem paths_of_layerData {frames : Nat} {allData : Bytes} {files : List FileEntry}
    (h : layerData sha256 frames layer = .ok (allData, files)) :
    ∃ paths, collectFiles layer frames [] = .ok paths ∧ files.map (·.path) = sortedKeys paths := by
  obtain ⟨paths, hpaths, hfold⟩ := except_bind_eq_ok.mp h
  exact ⟨paths, hpaths, foldlM_addFile_paths hfold⟩

/-- No path is listed twice, so each entry is found by its path. -/
theorem find?_of_mem {frames : Nat} {allData : Bytes} {files : List FileEntry} {f : FileEntry}
    (h : layerData sha256 frames layer = .ok (allData, files)) (hf : f ∈ files) :
    files.find? (·.path = f.path) = some f := by
  obtain ⟨paths, -, hlisted⟩ := paths_of_layerData h
  have hnodup : (files.map (·.path)).Nodup := by
    rw [hlisted]
    exact List.nodup_dedup _
  cases hfind : files.find? (·.path = f.path) with
  | none =>
    have hmissing := List.find?_eq_none.mp hfind f hf
    exact absurd rfl (of_decide_eq_false (Bool.eq_false_iff.mpr hmissing))
  | some g =>
    have hpath := List.find?_some hfind
    rw [List.inj_on_of_nodup_map hnodup (List.mem_of_find?_eq_some hfind) hf
      (of_decide_eq_true hpath)]

/-! ### The blocks of a file -/

theorem block_eq_slice (data : Bytes) (i : Nat) :
    block data i = slice data (i * blockSize) blockSize := rfl

theorem zeroPad_eq {b : Bytes} (h : b.length ≤ blockSize) :
    zeroPad b = b ++ List.replicate (blockSize - b.length) 0 := by
  unfold zeroPad
  split
  · rfl
  · rw [Nat.sub_eq_zero_of_le (by omega), List.replicate_zero, List.append_nil]

theorem zeroPad_of_length {b : Bytes} (h : b.length = blockSize) : zeroPad b = b := by
  rw [zeroPad, if_neg (by omega)]

/-- A block with its padding is a slice of the data with enough zeros behind it. -/
theorem zeroPad_block {c : Bytes} {i n : Nat}
    (h : i * blockSize + blockSize ≤ c.length + n) :
    zeroPad (block c i) = slice (c ++ List.replicate n 0) (i * blockSize) blockSize := by
  have hlen : (block c i).length = min blockSize (c.length - i * blockSize) := by
    rw [block_eq_slice, length_slice]
  rw [zeroPad_eq (by omega), hlen, slice, List.drop_append, List.take_append, List.length_drop,
    List.drop_replicate, List.take_replicate, block]
  congr 2
  omega

theorem alignBlocks_eq (c : Bytes) : ∃ n, alignBlocks c = c ++ List.replicate n 0 := by
  unfold alignBlocks
  split
  · exact ⟨0, by simp⟩
  · exact ⟨_, rfl⟩

/-- The blocks of a file are blocks of the data, up to zero padding. -/
theorem block_placed {f : FileEntry} {c allData : Bytes} {i : Nat} (h : Placed allData f c)
    (hi : i * blockSize < c.length) :
    f.blockRange.1 + i < blockCount allData ∧
      zeroPad (block allData (f.blockRange.1 + i)) = zeroPad (block c i) := by
  obtain ⟨pre, post, rfl, hpre, -⟩ := h
  obtain ⟨n, hn⟩ := alignBlocks_eq c
  have hwhole := length_alignBlocks c
  -- the file ends on a block boundary
  have hroom : i * blockSize + blockSize ≤ (alignBlocks c).length := by
    rw [hn, List.length_append, List.length_replicate] at hwhole ⊢
    unfold blockSize at *
    omega
  have hblock : block (pre ++ alignBlocks c ++ post) (f.blockRange.1 + i) =
      slice (alignBlocks c) (i * blockSize) blockSize := by
    rw [block_eq_slice, Nat.add_mul, ← hpre, List.append_assoc, slice_append_right,
      slice_append_left hroom]
  constructor
  · have hlen : (pre ++ alignBlocks c ++ post).length =
        f.blockRange.1 * blockSize + (alignBlocks c).length + post.length := by
      rw [List.length_append, List.length_append, hpre]
    have hne : (pre ++ alignBlocks c ++ post).isEmpty = false := by
      rw [List.isEmpty_eq_false_iff, ← List.length_pos_iff, hlen]
      unfold blockSize at *
      omega
    rw [blockCount, hne, if_neg Bool.false_ne_true, hlen]
    unfold blockSize at *
    omega
  · rw [hblock, zeroPad_of_length (by rw [length_slice]; omega), hn,
      zeroPad_block (by rw [hn] at hroom; simpa using hroom)]

/-- Two blocks of one length with the same padding are equal. -/
theorem zeroPad_inj {a b : Bytes} (hlen : a.length = b.length) (h : zeroPad a = zeroPad b) :
    a = b := by
  unfold zeroPad at h
  rw [hlen] at h
  split at h
  · exact List.append_cancel_right h
  · exact h

end MerkleTree

end Rspacefs
