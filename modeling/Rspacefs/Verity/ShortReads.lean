import Mathlib.Algebra.Order.BigOperators.Group.List
import Rspacefs.Verity.VerifyBlocks

/-!
# Verification over short reads

`full_check` and `read_raw_block` of `rspacefs-verity/src/verity.rs` make one call of `read` for
a block. A reader may give fewer bytes than it is asked for: then the next block of
`full_check` begins where that call ended, and a raw block ends there.

## Main definitions

* `Splits` — how many bytes each call gives, for each file and each time it is opened
* `fullCheckBy` — `full_check` over files that are read so
* `Covers` — the calls give the blocks of the files, up to zero padding

## Main results

* `shortReads_tolerated_iff` — over an untampered layer both functions succeed exactly if the
  calls give the blocks
-/

namespace Rspacefs

open Lib

namespace MerkleTree

/-- How many bytes the calls are ready to give: by file, by opening, by call. -/
abbrev Splits := Path → Nat → Nat → Nat

variable {σ : Type} [FileSystem σ] {sha256 : Bytes → Hash256} {layer : VerifiedLayer}
  {splits : Splits} {data c : Bytes} {f : FileEntry} {gives : Nat → Nat}

/-- What the calls of `full_check` give for a content. -/
def chunksOf (content : Bytes) (gives : Nat → Nat) : List Bytes :=
  (⟨content, gives⟩ : Source UInt8).chunks blockSize

/-- `full_check` over files that are read so. -/
def fullCheckBy (sha256 : Bytes → Hash256) (splits : Splits) (layer : VerifiedLayer) (inner : σ) :
    VfsResult (Nat × Nat) :=
  scanFiles sha256 layer fun entry => do
    let content ← contentAt inner entry.path
    return chunksOf content (splits entry.path 0)

/-- How many data blocks the files have. -/
def dataBlocks (files : List FileEntry) : Nat :=
  (files.map fun f => (f.size + blockSize - 1) / blockSize).sum

/-! ### One file -/

theorem length_readBlocks_le (c : Bytes) (gives : Nat → Nat) :
    (readBlocks c).length ≤ (chunksOf c gives).length := by
  have hle := Source.le_length_chunks blockSize_pos (⟨c, gives⟩ : Source UInt8)
  change c.length ≤ (chunksOf c gives).length * blockSize at hle
  rw [length_readBlocks]
  unfold blockSize at *
  omega

/-- No padding block is checked behind the chunks of an untampered file. -/
theorem checkedBufs_chunksOf (hplaced : Placed data f c) :
    checkedBufs f (chunksOf c gives) = chunksOf c gives := by
  have hle := length_readBlocks_le c gives
  rw [checkedBufs, hplaced.blockRange, Nat.sub_eq_zero_of_le (by omega), List.replicate_zero,
    List.append_nil]

/-- As many chunks as blocks miss nothing exactly if they are the blocks, up to zero padding. -/
theorem misses_chunksOf_eq_zero_iff (htree : layer.tree = build sha256 data)
    (hroot : layer.rootHash = rootHash (build sha256 data)) (hplaced : Placed data f c)
    (hlen : (chunksOf c gives).length = (readBlocks c).length)
    (htrust : ∀ idx buf, idx * blockSize < c.length → (chunksOf c gives)[idx]? = some buf →
      CollisionFree sha256 (hashedByBuild sha256 data ++
        hashedByVerify sha256 (build sha256 data) (f.blockRange.1 + idx) buf) ∧
      hashBlock sha256 buf ≠ zeroHash) :
    misses sha256 layer f.blockRange.1 (chunksOf c gives) = 0 ↔
      (chunksOf c gives).map zeroPad = (readBlocks c).map zeroPad := by
  -- each chunk passes exactly if it is the block at its index
  have hblock : ∀ i (hi : i < (chunksOf c gives).length),
      (verifyBlock sha256 layer.tree (f.blockRange.1 + i) (chunksOf c gives)[i] layer.rootHash =
        true ↔ zeroPad (chunksOf c gives)[i] = zeroPad (block c i)) := by
    intro i hi
    have hin : i * blockSize < c.length := by
      rw [hlen, length_readBlocks] at hi
      unfold blockSize at *
      omega
    obtain ⟨hfree, hzero⟩ := htrust i _ hin (List.getElem?_eq_getElem hi)
    rw [htree, hroot]
    exact verifyBlock_placed_iff hplaced hin hfree hzero
  rw [misses_eq_zero_iff]
  constructor
  · intro hall
    apply List.ext_getElem
    · rw [List.length_map, List.length_map, hlen]
    · intro i hi hi'
      rw [List.length_map] at hi
      simp only [List.getElem_map, readBlocks, List.getElem_range]
      exact (hblock i hi).mp (hall i hi)
  · intro heq i hi
    rw [hblock i hi]
    have hpad := List.getElem_of_eq heq (i := i) (by rw [List.length_map]; exact hi)
    simpa only [List.getElem_map, readBlocks, List.getElem_range] using hpad

/-! ### All files -/

/-- Where each summand is bounded, equal sums have equal summands. -/
theorem eq_of_sum_map_eq {α : Type} {l : List α} {g h : α → Nat} (hle : ∀ a ∈ l, g a ≤ h a)
    (hsum : (l.map h).sum = (l.map g).sum) : ∀ a ∈ l, h a = g a := by
  induction l with
  | nil => exact fun _ ha => absurd ha List.not_mem_nil
  | cons a l ih =>
    rw [List.map_cons, List.map_cons, List.sum_cons, List.sum_cons] at hsum
    obtain ⟨hfirst, hrest⟩ := List.forall_mem_cons.mp hle
    have htail := List.sum_le_sum hrest
    intro b hb
    rcases List.mem_cons.mp hb with rfl | hb
    · omega
    · exact ih hrest (by omega) b hb

/-- The calls give the blocks of each file, up to zero padding: those of `full_check` in order,
and those of `verify_file_blocks` for each block that it reads and may reject. -/
def Covers (layer : VerifiedLayer) (cacheEnabled : Bool) (cache : BlockCache) (inner : σ)
    (splits : Splits) : Prop :=
  ∀ f ∈ layer.manifest.files, ∀ c, contentAt inner f.path = .ok c →
    (chunksOf c (splits f.path 0)).map zeroPad = (readBlocks c).map zeroPad ∧
    ∀ idx i, i ≤ idx → idx * blockSize < c.length →
      layer.onFailure = .warn ∨ (cacheEnabled && cache.isVerified (f.blockRange.1 + idx)) = true ∨
        zeroPad (rawBlock c (splits f.path i) idx) = zeroPad (block c idx)

/-- No collision among what was hashed for the layer and what is hashed to check what the
calls give, nor a buffer with the hash that stands for padding. -/
def CallsTrusted (sha256 : Bytes → Hash256) (frames : Nat) (inner : σ) (splits : Splits) : Prop :=
  ∀ data files, layerData sha256 frames inner = .ok (data, files) →
    ∀ f ∈ files, ∀ c, contentAt inner f.path = .ok c →
      ∀ idx buf, idx * blockSize < c.length →
        (chunksOf c (splits f.path 0))[idx]? = some buf ∨
          (∃ i, buf = rawBlock c (splits f.path i) idx) →
        CollisionFree sha256 (hashedByBuild sha256 data ++
          hashedByVerify sha256 (build sha256 data) (f.blockRange.1 + idx) buf) ∧
        hashBlock sha256 buf ≠ zeroHash

/-- From the block `i` before it, the rest of the file reaches each block of the file. -/
theorem spannedBlocks_rest {size idx i : Nat} (hi : i ≤ idx) (hidx : idx * blockSize < size) :
    i < spannedBlocks (size - (idx - i) * blockSize) ((idx - i) * blockSize) ∧
      (idx - i) * blockSize / blockSize + i = idx := by
  unfold spannedBlocks blockSize at *
  omega

/-- The full check counts every block and no failure exactly if the calls that it makes give the
blocks. -/
theorem fullCheckBy_eq_ok_iff {inner : σ} {content : FileEntry → Bytes}
    (htree : layer.tree = build sha256 data) (hroot : layer.rootHash = rootHash (build sha256 data))
    (hcontent : ∀ f ∈ layer.manifest.files, contentAt inner f.path = .ok (content f))
    (hsize : ∀ f ∈ layer.manifest.files, f.size = (content f).length)
    (hplaced : ∀ f ∈ layer.manifest.files, Placed data f (content f))
    (htrust : ∀ f ∈ layer.manifest.files, ∀ idx buf, idx * blockSize < (content f).length →
      (chunksOf (content f) (splits f.path 0))[idx]? = some buf →
      CollisionFree sha256 (hashedByBuild sha256 data ++
        hashedByVerify sha256 (build sha256 data) (f.blockRange.1 + idx) buf) ∧
      hashBlock sha256 buf ≠ zeroHash) :
    fullCheckBy sha256 splits layer inner = .ok (dataBlocks layer.manifest.files, 0) ↔
      ∀ f ∈ layer.manifest.files,
        (chunksOf (content f) (splits f.path 0)).map zeroPad = (readBlocks (content f)).map zeroPad := by
  have hbufs : ∀ f ∈ layer.manifest.files, (contentAt inner f.path >>= fun content =>
      (pure (chunksOf content (splits f.path 0)) : VfsResult (List Bytes))) =
        .ok (chunksOf (content f) (splits f.path 0)) := by
    intro f hf
    rw [hcontent f hf]
    rfl
  have hchecked : ∀ f ∈ layer.manifest.files,
      checkedBufs f (chunksOf (content f) (splits f.path 0)) =
        chunksOf (content f) (splits f.path 0) := fun f hf => checkedBufs_chunksOf (hplaced f hf)
  have hblocks : dataBlocks layer.manifest.files =
      (layer.manifest.files.map fun f => (readBlocks (content f)).length).sum := by
    unfold dataBlocks
    congr 1
    apply List.map_congr_left
    intro f hf
    rw [length_readBlocks, hsize f hf]
  rw [fullCheckBy, scanFiles_eq_ok hbufs, Except.ok.injEq, Prod.mk.injEq, hblocks,
    List.sum_eq_zero_iff_forall_eq_nat, List.forall_mem_map,
    List.map_congr_left fun f hf => congrArg List.length (hchecked f hf)]
  constructor
  · rintro ⟨hsum, hmisses⟩ f hf
    -- no file gives fewer buffers than it has blocks, so equal sums are equal counts
    have hlen := eq_of_sum_map_eq (fun f _ => length_readBlocks_le (content f) (splits f.path 0))
      hsum f hf
    have hnone := hmisses f hf
    rw [hchecked f hf] at hnone
    exact (misses_chunksOf_eq_zero_iff htree hroot (hplaced f hf) hlen (htrust f hf)).mp hnone
  · intro hsame
    have hlen : ∀ f ∈ layer.manifest.files, (chunksOf (content f) (splits f.path 0)).length =
        (readBlocks (content f)).length := by
      intro f hf
      simpa only [List.length_map] using congrArg List.length (hsame f hf)
    refine ⟨congrArg List.sum (List.map_congr_left hlen), fun f hf => ?_⟩
    rw [hchecked f hf]
    exact (misses_chunksOf_eq_zero_iff htree hroot (hplaced f hf) (hlen f hf) (htrust f hf)).mpr
      (hsame f hf)

/-- Every range of a file is verified exactly if each read of a block that may be rejected gives
that block. -/
theorem verifyFileBlocks_all_iff {inner : σ} {cacheEnabled : Bool} {cache : BlockCache}
    (htree : layer.tree = build sha256 data) (hroot : layer.rootHash = rootHash (build sha256 data))
    (hfind : layer.manifest.files.find? (·.path = f.path) = some f)
    (hcontent : contentAt inner f.path = .ok c) (hsize : f.size = c.length)
    (hplaced : Placed data f c)
    (htrust : ∀ idx i, idx * blockSize < c.length →
      CollisionFree sha256 (hashedByBuild sha256 data ++ hashedByVerify sha256 (build sha256 data)
        (f.blockRange.1 + idx) (rawBlock c (splits f.path i) idx)) ∧
      hashBlock sha256 (rawBlock c (splits f.path i) idx) ≠ zeroHash) :
    (∀ offset len, offset + len ≤ f.size →
      Returns (verifyFileBlocks sha256 layer cacheEnabled inner (splits f.path) f.path len offset)
        cache) ↔
      ∀ idx i, i ≤ idx → idx * blockSize < c.length →
        layer.onFailure = .warn ∨
          (cacheEnabled && cache.isVerified (f.blockRange.1 + idx)) = true ∨
          zeroPad (rawBlock c (splits f.path i) idx) = zeroPad (block c idx) := by
  have hpasses : ∀ idx i, idx * blockSize < c.length →
      (BlockPasses sha256 layer cacheEnabled inner f.path (splits f.path i) cache
        (f.blockRange.1 + idx) idx ↔
      layer.onFailure = .warn ∨
        (cacheEnabled && cache.isVerified (f.blockRange.1 + idx)) = true ∨
        zeroPad (rawBlock c (splits f.path i) idx) = zeroPad (block c idx)) := by
    intro idx i hidx
    obtain ⟨hfree, hzero⟩ := htrust idx i hidx
    have hread : readRawBlock inner f.path (splits f.path i) idx =
        .ok (rawBlock c (splits f.path i) idx) := by
      rw [readRawBlock, hcontent]
    unfold BlockPasses
    rw [hread, htree, hroot]
    simp only [Except.ok.injEq, exists_eq_left', verifyBlock_placed_iff hplaced hidx hfree hzero]
    rw [← or_assoc, or_comm]
  simp only [verifyFileBlocks_returns_iff hfind, Nat.add_assoc]
  constructor
  · intro hall idx i hi hidx
    -- a range whose block number `i` is this one, up to the end of the file
    obtain ⟨hspan, hat⟩ := spannedBlocks_rest hi (hsize.symm ▸ hidx : idx * blockSize < f.size)
    have hrange := hall ((idx - i) * blockSize) (f.size - (idx - i) * blockSize)
      (by unfold blockSize at *; omega) i hspan
    rw [hat] at hrange
    exact (hpasses idx i hidx).mp hrange
  · intro hall offset len hinside i hi
    have hidx := lt_of_spannedBlocks hinside hi
    rw [hsize] at hidx
    exact (hpasses _ i hidx).mpr (hall _ i (Nat.le_add_left _ _) hidx)

/-- A layer that checks a directory against the tree of that directory. -/
structure Own (sha256 : Bytes → Hash256) (data : Bytes) (files : List FileEntry)
    (layer : VerifiedLayer) : Prop where
  tree : layer.tree = build sha256 data
  root : layer.rootHash = rootHash (build sha256 data)
  files : layer.manifest.files = files

theorem Own.tolerated_iff {frames : Nat} {inner : σ} {files : List FileEntry}
    (hown : Own sha256 data files layer)
    (hdata : layerData sha256 frames inner = .ok (data, files))
    (hhonest : ∀ f ∈ files, ∀ md c, metadata inner f.path = .ok md →
      contentAt inner f.path = .ok c → md.len = c.length)
    (cacheEnabled : Bool) (cache : BlockCache) (htrust : CallsTrusted sha256 frames inner splits) :
    (fullCheckBy sha256 splits layer inner = .ok (dataBlocks files, 0) ∧
      ∀ f ∈ files, ∀ offset len, offset + len ≤ f.size →
        Returns (verifyFileBlocks sha256 layer cacheEnabled inner (splits f.path) f.path len offset)
          cache) ↔
      Covers layer cacheEnabled cache inner splits := by
  obtain ⟨htree, hroot, rfl⟩ := hown
  have hfile : ∀ f ∈ layer.manifest.files, ∃ c, contentAt inner f.path = .ok c ∧
      f.size = c.length ∧ Placed data f c := by
    intro f hf
    obtain ⟨md, c, hmd, hc, hsize, hplaced⟩ := placed_of_mem hdata hf
    exact ⟨c, hc, hsize.trans (hhonest f hf md c hmd hc), hplaced⟩
  -- every file of the manifest can be read and is where the manifest places it
  choose! content hcontent hsize hplaced using hfile
  have htrusted : ∀ f ∈ layer.manifest.files, _ := fun f hf =>
    htrust data _ hdata f hf _ (hcontent f hf)
  rw [fullCheckBy_eq_ok_iff htree hroot hcontent hsize hplaced
    fun f hf idx buf hidx hbuf => htrusted f hf idx buf hidx (Or.inl hbuf)]
  unfold Covers
  rw [← forall₂_and]
  apply forall₂_congr
  intro f hf
  rw [verifyFileBlocks_all_iff htree hroot (find?_of_mem hdata hf) (hcontent f hf) (hsize f hf)
    (hplaced f hf) fun idx i hidx => htrusted f hf idx _ hidx (Or.inr ⟨i, rfl⟩)]
  constructor
  · intro h c hc
    obtain rfl := Except.ok.inj ((hcontent f hf).symm.trans hc)
    exact h
  · exact fun h => h _ (hcontent f hf)

/-- Over an untampered layer the full check counts every block and no failure, and every range
of every file is verified, exactly if the calls give the blocks. -/
theorem shortReads_tolerated_iff {frames : Nat} {inner : σ} {tree : MerkleTree} {mf : LayerManifest}
    (hbuild : buildFromVfs sha256 frames inner = .ok (tree, mf))
    (hhonest : ∀ f ∈ mf.files, ∀ md c, metadata inner f.path = .ok md →
      contentAt inner f.path = .ok c → md.len = c.length)
    (onFailure : OnFailure) (cacheEnabled : Bool) (cache : BlockCache)
    (htrust : CallsTrusted sha256 frames inner splits) :
    (fullCheckBy sha256 splits ⟨tree, mf, tree.rootHash, onFailure⟩ inner =
        .ok (dataBlocks mf.files, 0) ∧
      ∀ f ∈ mf.files, ∀ offset len, offset + len ≤ f.size →
        Returns (verifyFileBlocks sha256 ⟨tree, mf, tree.rootHash, onFailure⟩ cacheEnabled inner
          (splits f.path) f.path len offset) cache) ↔
      Covers ⟨tree, mf, tree.rootHash, onFailure⟩ cacheEnabled cache inner splits := by
  obtain ⟨⟨data, entries⟩, hdata, hbuild⟩ := except_bind_eq_ok.mp hbuild
  cases hbuild
  exact Own.tolerated_iff ⟨rfl, rfl, rfl⟩ hdata hhonest cacheEnabled cache htrust

/-! ### A file of two bytes -/

/-- A layer with one file of two bytes. -/
def twoByteLayer : Tree := Tree.ofEntries [(["f".toList], .file [1, 2])]

/-- The SHA-256 digest of the file. -/
def twoByteDigest : Hash256 :=
  ⟨[161, 40, 113, 254, 226, 16, 251, 134, 25, 41, 30, 174, 161, 148, 88, 28, 189, 37, 49, 228, 178,
    55, 89, 210, 37, 246, 128, 105, 35, 246, 50, 34], rfl⟩

/-- The SHA-256 digest of its metadata text, `f:2:0`. -/
def twoByteMetaDigest : Hash256 :=
  ⟨[129, 230, 195, 53, 40, 116, 62, 221, 201, 57, 94, 4, 44, 110, 101, 41, 211, 4, 84, 153, 254,
    116, 46, 93, 128, 152, 181, 174, 90, 127, 57, 70], rfl⟩

/-- The SHA-256 digest of `twoByteDigest` and `twoByteMetaDigest`. -/
def twoByteManifestDigest : Hash256 :=
  ⟨[188, 67, 40, 125, 182, 74, 219, 195, 223, 180, 75, 114, 4, 98, 114, 96, 124, 112, 69, 173, 78,
    173, 166, 17, 238, 174, 133, 196, 250, 69, 26, 223], rfl⟩

/-- The SHA-256 digest of the file, padded. -/
def twoByteBlockDigest : Hash256 :=
  ⟨[116, 129, 116, 181, 59, 122, 161, 40, 250, 165, 55, 92, 81, 222, 29, 139, 97, 43, 201, 76, 117,
    95, 144, 15, 255, 18, 229, 243, 172, 67, 185, 104], rfl⟩

/-- SHA-256 on the inputs of the layer, and on the padded block of its first byte. -/
def twoByteSha256 (x : Bytes) : Hash256 :=
  if x.length = 2 then twoByteDigest
  else if x.length = 5 then twoByteMetaDigest
  else if x.length = hashSize + hashSize then twoByteManifestDigest
  else if x.take 2 = [1, 2] then twoByteBlockDigest
  else secondDigest

/-- The manifest entry of the file. -/
def twoByteEntry : FileEntry :=
  ⟨["f".toList], 2, twoByteDigest, twoByteMetaDigest, (0, 1), .file, none⟩

/-- The layer, verified against its own tree. -/
def twoByteVerified : VerifiedLayer :=
  ⟨⟨[twoByteBlockDigest], 1, 1⟩, ⟨[twoByteEntry], twoByteManifestDigest, twoByteBlockDigest, blockSize⟩,
    twoByteBlockDigest, .reject⟩

theorem buildFromVfs_twoByte : buildFromVfs twoByteSha256 8 twoByteLayer =
    .ok (twoByteVerified.tree, twoByteVerified.manifest) := by
  decide +kernel

/-- What is read of the file does not collide with the file. -/
theorem callsTrusted_twoByte {splits : Splits}
    (hchunk : ∀ buf, (chunksOf [1, 2] (splits ["f".toList] 0))[0]? = some buf →
      buf = [1] ∨ buf = [1, 2])
    (hraw : ∀ i, rawBlock [1, 2] (splits ["f".toList] i) 0 = [1] ∨
      rawBlock [1, 2] (splits ["f".toList] i) 0 = [1, 2]) :
    CallsTrusted twoByteSha256 8 twoByteLayer splits := by
  intro data files hdata f hf c hc idx buf hidx hbuf
  have hbuild := buildFromVfs_twoByte
  rw [buildFromVfs, hdata, ok_bind] at hbuild
  obtain ⟨htree, hmanifest⟩ := Prod.mk.inj (Except.ok.inj hbuild)
  obtain rfl : files = [twoByteEntry] := congrArg LayerManifest.files hmanifest
  obtain rfl := List.mem_singleton.mp hf
  obtain rfl : [1, 2] = c := Except.ok.inj hc
  obtain rfl : idx = 0 := by
    change idx * 4096 < 2 at hidx
    omega
  have hread : buf = [1] ∨ buf = [1, 2] := by
    rcases hbuf with hbuf | ⟨i, rfl⟩
    · exact hchunk buf hbuf
    · exact hraw i
  obtain ⟨recorded, hrecorded, rfl⟩ := layerData_eq_ok hdata
  have hfiles : layerFiles 8 twoByteLayer = .ok [(["f".toList], [1, 2])] := by decide +kernel
  obtain rfl := Except.ok.inj (hfiles.symm.trans hrecorded)
  have haligned : (concatenated [(["f".toList], [1, 2])]).length = blockSize := by
    rw [concatenated_one]
    decide +kernel
  have hpadded : concatenated [(["f".toList], [1, 2])] = zeroPad [1, 2] := concatenated_one _ _
  have hdigests : [zeroPad [1, 2], zeroPad [1]].map twoByteSha256 =
      [twoByteBlockDigest, secondDigest] := by decide +kernel
  have hmem : zeroPad buf ∈ [zeroPad [1, 2], zeroPad [1]] := by
    rcases hread with rfl | rfl
    · exact List.mem_cons_of_mem _ List.mem_cons_self
    · exact List.mem_cons_self
  refine collisionFree_and_ne_zeroHash (by rw [hdigests]; decide) (by rw [hdigests]; decide)
    (fun x hx => ?_) fun x hx => ?_
  · rw [hashedByBuild_block haligned, hpadded] at hx
    rw [List.mem_singleton.mp hx]
    exact List.mem_cons_self
  · rw [htree, hashedByVerify_leaf buf rfl] at hx
    rwa [List.mem_singleton.mp hx]

/-- Calls that give one byte at a time: both functions report corruption. -/
theorem short_reads_rejected :
    CallsTrusted twoByteSha256 8 twoByteLayer (fun _ _ _ => 1) ∧
      fullCheckBy twoByteSha256 (fun _ _ _ => 1) twoByteVerified twoByteLayer = .ok (2, 2) ∧
      dataBlocks twoByteVerified.manifest.files = 1 ∧
      ¬ Returns (verifyFileBlocks twoByteSha256 twoByteVerified true twoByteLayer (fun _ _ => 1)
        ["f".toList] 2 0) (BlockCache.new 1) := by
  have hfirst : (chunksOf [1, 2] (fun _ => 1))[0]? = some [1] := by decide +kernel
  have hone : readRawBlock twoByteLayer ["f".toList] (fun _ => 1) 0 = .ok [1] := by decide +kernel
  refine ⟨callsTrusted_twoByte ?_ ?_, by decide +kernel, by decide, ?_⟩
  · intro buf hbuf
    exact Or.inl (Option.some.inj (hfirst.symm.trans hbuf)).symm
  · intro i
    exact Or.inl (by decide +kernel)
  · have hfind : twoByteVerified.manifest.files.find? (·.path = ["f".toList]) =
        some twoByteEntry := by decide
    rw [verifyFileBlocks_returns_iff hfind]
    intro hall
    rcases hall 0 (by decide) with hcached | ⟨buf, hread, hpass⟩
    · exact absurd hcached (by decide)
    · obtain rfl := Except.ok.inj (hone.symm.trans hread)
      rcases hpass with haccepted | hwarn
      · exact absurd haccepted (by decide +kernel)
      · exact absurd hwarn (by decide)

theorem shortReads_tolerated_iff_full :
    fullCheckBy twoByteSha256 (fun _ _ _ => blockSize) twoByteVerified twoByteLayer = .ok (1, 0) ∧
      Returns (verifyFileBlocks twoByteSha256 twoByteVerified true twoByteLayer
        (fun _ _ => blockSize) ["f".toList] 1 1) (BlockCache.new 1) := by
  have hchunks : chunksOf [1, 2] (fun _ => blockSize) = [[1, 2]] := by decide +kernel
  have hraw : rawBlock [1, 2] (fun _ => blockSize) 0 = [1, 2] := by decide +kernel
  have hcovers : Covers twoByteVerified true (BlockCache.new 1) twoByteLayer
      (fun _ _ _ => blockSize) := by
    intro f hf c hc
    obtain rfl := List.mem_singleton.mp hf
    obtain rfl : [1, 2] = c := Except.ok.inj hc
    refine ⟨by rw [hchunks]; rfl, fun idx i _ hidx => Or.inr (Or.inr ?_)⟩
    obtain rfl : idx = 0 := by
      change idx * 4096 < 2 at hidx
      omega
    rw [hraw]
    rfl
  have htrust : CallsTrusted twoByteSha256 8 twoByteLayer fun _ _ _ => blockSize := by
    apply callsTrusted_twoByte
    · intro buf hbuf
      rw [hchunks] at hbuf
      exact Or.inr (Option.some.inj hbuf).symm
    · intro i
      exact Or.inr hraw
  have htolerated := (shortReads_tolerated_iff buildFromVfs_twoByte ?_ .reject true
    (BlockCache.new 1) htrust).mpr hcovers
  · exact ⟨htolerated.1, htolerated.2 twoByteEntry List.mem_cons_self 1 1 (by decide)⟩
  · intro f hf md c hmd hc
    obtain rfl := List.mem_singleton.mp hf
    obtain rfl := Except.ok.inj hmd
    obtain rfl : [1, 2] = c := Except.ok.inj hc
    rfl

end MerkleTree

end Rspacefs
