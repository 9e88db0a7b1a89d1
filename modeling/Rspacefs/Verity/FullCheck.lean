import Rspacefs.Verity.Verify

/-!
# What the full check finds

`full_check` of `rspacefs-verity/src/verity.rs` reads each file of the manifest to its own end
and compares its blocks with those of the tree from the first block of the file on. It looks
neither at the recorded size nor at where the next file begins, and it hashes blocks padded
with zeros.

## Main definitions

* `checkBufs`, `scanFiles` — the loop of `full_check` over what the reads of a file give
* `Continues` — a content is, up to zero padding, what the data holds from a file's place on
* `SameContents` — every file of the manifest is as it was

## Main results

* `scanFiles_eq_ok` — what the loop counts
* `passes_readBlocks_iff` — the blocks of a file pass exactly if its content continues so
* `fullCheck_exact_iff` — when the check finds exactly the tampering
-/

namespace Rspacefs

open Lib

namespace MerkleTree

variable {σ τ : Type} [FileSystem σ] [FileSystem τ] {sha256 : Bytes → Hash256}
  {layer : VerifiedLayer} {entry : FileEntry} {bufs : List Bytes} {data c : Bytes}

/-! ### Counting -/

/-- The loop over one file of `full_check`, given what its reads return, and the padding
blocks behind it. -/
def checkBufs (sha256 : Bytes → Hash256) (layer : VerifiedLayer) (counts : Nat × Nat)
    (entry : FileEntry) (bufs : List Bytes) : Nat × Nat :=
  let acc := bufs.foldl (checkBlock sha256 layer) (entry.blockRange.1, counts)
  let padding := List.replicate (entry.blockRange.2 - acc.1) []
  (padding.foldl (checkBlock sha256 layer) acc).2

/-- The loop of `full_check`, given what the reads of each file return. -/
def scanFiles (sha256 : Bytes → Hash256) (layer : VerifiedLayer)
    (bufsOf : FileEntry → VfsResult (List Bytes)) : VfsResult (Nat × Nat) :=
  layer.manifest.files.foldlM (fun counts entry => do
    let bufs ← bufsOf entry
    return checkBufs sha256 layer counts entry bufs) (0, 0)

/-- With reads that fill the buffer this is `full_check`. -/
theorem fullCheck_eq_scanFiles (inner : σ) :
    fullCheck sha256 layer inner =
      scanFiles sha256 layer fun entry => readBlocks <$> contentAt inner entry.path := by
  unfold fullCheck scanFiles
  congr 1
  funext counts entry
  change (contentAt inner entry.path >>= fun content =>
    Except.ok (checkBufs sha256 layer counts entry (readBlocks content))) = _
  dsimp only
  cases contentAt inner entry.path with
  | error e => rfl
  | ok content => rfl

/-- The buffers that are checked for a file: those read, then empty ones up to its end. -/
def checkedBufs (entry : FileEntry) (bufs : List Bytes) : List Bytes :=
  bufs ++ List.replicate (entry.blockRange.2 - (entry.blockRange.1 + bufs.length)) []

/-- How many buffers fail, from a block index on. -/
def misses (sha256 : Bytes → Hash256) (layer : VerifiedLayer) : Nat → List Bytes → Nat
  | _, [] => 0
  | i, buf :: bufs =>
    (if verifyBlock sha256 layer.tree i buf layer.rootHash then 0 else 1) +
      misses sha256 layer (i + 1) bufs

theorem foldl_checkBlock_eq (start checked failed : Nat) :
    bufs.foldl (checkBlock sha256 layer) (start, checked, failed) =
      (start + bufs.length, checked + bufs.length, failed + misses sha256 layer start bufs) := by
  induction bufs generalizing start checked failed with
  | nil => rfl
  | cons buf bufs ih =>
    rw [List.foldl_cons, checkBlock, ih, misses, List.length_cons]
    split
    · simp only [Prod.mk.injEq]
      omega
    · simp only [Prod.mk.injEq]
      omega

theorem misses_append (start : Nat) (bufs' : List Bytes) :
    misses sha256 layer start (bufs ++ bufs') =
      misses sha256 layer start bufs + misses sha256 layer (start + bufs.length) bufs' := by
  induction bufs generalizing start with
  | nil => rw [List.nil_append, misses, Nat.zero_add, List.length_nil, Nat.add_zero]
  | cons buf bufs ih =>
    have hstart : start + (buf :: bufs).length = start + 1 + bufs.length := by
      rw [List.length_cons]
      omega
    rw [List.cons_append, misses, misses, ih, hstart]
    exact (Nat.add_assoc _ _ _).symm

theorem misses_eq_zero_iff {start : Nat} :
    misses sha256 layer start bufs = 0 ↔ ∀ i (hi : i < bufs.length),
      verifyBlock sha256 layer.tree (start + i) bufs[i] layer.rootHash = true := by
  induction bufs generalizing start with
  | nil => simp [misses]
  | cons buf bufs ih =>
    rw [misses, Nat.add_eq_zero_iff, ih]
    constructor
    · rintro ⟨hfirst, hrest⟩ i hi
      cases i with
      | zero =>
        by_contra hfail
        simp only [Nat.add_zero, List.getElem_cons_zero] at hfail
        rw [if_neg hfail] at hfirst
        exact absurd hfirst Nat.one_ne_zero
      | succ i =>
        have hpass := hrest i (Nat.lt_of_succ_lt_succ hi)
        rwa [Nat.add_assoc, Nat.add_comm 1] at hpass
    · intro hall
      refine ⟨if_pos (hall 0 (Nat.succ_pos _)), fun i hi => ?_⟩
      have hpass := hall (i + 1) (Nat.succ_lt_succ hi)
      rwa [Nat.add_assoc, Nat.add_comm 1]

theorem checkBufs_eq (checked failed : Nat) :
    checkBufs sha256 layer (checked, failed) entry bufs =
      (checked + (checkedBufs entry bufs).length,
        failed + misses sha256 layer entry.blockRange.1 (checkedBufs entry bufs)) := by
  unfold checkBufs checkedBufs
  rw [foldl_checkBlock_eq]
  dsimp only
  rw [foldl_checkBlock_eq, misses_append, List.length_append]
  simp only [Nat.add_assoc]

/-- The loop counts every checked buffer, and every failure. -/
theorem scanFiles_eq_ok {bufsOf : FileEntry → VfsResult (List Bytes)}
    {bufs : FileEntry → List Bytes} (h : ∀ f ∈ layer.manifest.files, bufsOf f = .ok (bufs f)) :
    scanFiles sha256 layer bufsOf =
      .ok ((layer.manifest.files.map fun f => (checkedBufs f (bufs f)).length).sum,
        (layer.manifest.files.map fun f =>
          misses sha256 layer f.blockRange.1 (checkedBufs f (bufs f))).sum) := by
  have hfold : ∀ (files : List FileEntry) (checked failed : Nat),
      (∀ f ∈ files, bufsOf f = .ok (bufs f)) →
      files.foldlM (fun counts entry => do
        let bufs ← bufsOf entry
        return checkBufs sha256 layer counts entry bufs) (checked, failed) =
      (Except.ok (checked + (files.map fun f => (checkedBufs f (bufs f)).length).sum,
        failed + (files.map fun f =>
          misses sha256 layer f.blockRange.1 (checkedBufs f (bufs f))).sum) :
            VfsResult (Nat × Nat)) := by
    intro files
    induction files with
    | nil => exact fun _ _ _ => rfl
    | cons f files ih =>
      intro checked failed h
      rw [List.foldlM_cons, h f List.mem_cons_self, ok_bind, checkBufs_eq]
      change files.foldlM _ _ = _
      rw [ih _ _ fun f hf => h f (List.mem_cons_of_mem _ hf)]
      simp only [List.map_cons, List.sum_cons, Nat.add_assoc]
  have hall := hfold layer.manifest.files 0 0 h
  rwa [Nat.zero_add, Nat.zero_add] at hall

/-! ### Passing -/

/-- The buffers, zero-padded, are the blocks of the data from an index on. -/
def Passes (data : Bytes) (start : Nat) (bufs : List Bytes) : Prop :=
  ∀ i (hi : i < bufs.length),
    start + i < blockCount data ∧ zeroPad bufs[i] = zeroPad (block data (start + i))

/-- The content of a file, padded with zeros to the blocks that are checked for it, is what
the data holds from the first block of the file on. -/
def Continues (data : Bytes) (entry : FileEntry) (c : Bytes) : Prop :=
  let checked := (checkedBufs entry (readBlocks c)).length
  c ++ List.replicate (checked * blockSize - c.length) 0 =
    slice (covered data) (entry.blockRange.1 * blockSize) (checked * blockSize)

theorem length_readBlocks (c : Bytes) :
    (readBlocks c).length = (c.length + blockSize - 1) / blockSize := by
  rw [readBlocks, List.length_map, List.length_range]

/-- The checked blocks make room for the content. -/
theorem length_le_checkedBufs (entry : FileEntry) (c : Bytes) :
    c.length ≤ (checkedBufs entry (readBlocks c)).length * blockSize := by
  rw [checkedBufs, List.length_append, length_readBlocks]
  unfold blockSize
  omega

/-- A buffer that is checked is the block of the content, which is empty behind its end. -/
theorem getElem_checkedBufs {i : Nat} (hi : i < (checkedBufs entry (readBlocks c)).length) :
    (checkedBufs entry (readBlocks c))[i] = block c i := by
  simp only [checkedBufs, List.getElem_append]
  split
  · simp only [readBlocks, List.getElem_map, List.getElem_range]
  · rename_i hbehind
    rw [List.getElem_replicate, block_eq_slice, slice_of_length_le]
    rw [length_readBlocks] at hbehind
    unfold blockSize at *
    omega

theorem length_covered (h : data.length % blockSize = 0) :
    (covered data).length = blockCount data * blockSize := by
  unfold covered blockCount
  split
  · rw [List.length_replicate, Nat.one_mul]
  · unfold blockSize at *
    omega

theorem zeroPad_block_covered {i : Nat} (h : data.length % blockSize = 0)
    (hi : i < blockCount data) :
    zeroPad (block data i) = slice (covered data) (i * blockSize) blockSize := by
  unfold covered
  split
  · rename_i hempty
    rw [List.isEmpty_iff.mp hempty] at hi ⊢
    obtain rfl : i = 0 := Nat.lt_one_iff.mp hi
    rw [show block [] 0 = [] from rfl, zeroPad_nil, slice, Nat.zero_mul, List.drop_zero,
      List.take_replicate, Nat.min_self]
  · rename_i hne
    rw [zeroPad_of_length, block_eq_slice]
    rw [blockCount, if_neg hne] at hi
    rw [block_eq_slice, length_slice]
    unfold blockSize at *
    omega

/-- The blocks of a file pass exactly if its content continues as the data does. -/
theorem passes_readBlocks_iff (h : data.length % blockSize = 0) :
    Passes data entry.blockRange.1 (checkedBufs entry (readBlocks c)) ↔ Continues data entry c := by
  obtain ⟨n, hn⟩ : ∃ n, (checkedBufs entry (readBlocks c)).length = n := ⟨_, rfl⟩
  have hroom := length_le_checkedBufs entry c
  have hcontinues : Continues data entry c ↔
      c ++ List.replicate (n * blockSize - c.length) 0 =
        slice (covered data) (entry.blockRange.1 * blockSize) (n * blockSize) := by
    rw [← hn]
    exact Iff.rfl
  rw [hn] at hroom
  rw [hcontinues]
  -- both sides are cut into blocks, the content with zeros up to the last of them
  have hbuf : ∀ i (hi : i < (checkedBufs entry (readBlocks c)).length),
      zeroPad (checkedBufs entry (readBlocks c))[i] =
        piece blockSize (c ++ List.replicate (n * blockSize - c.length) 0) i := by
    intro i hi
    rw [getElem_checkedBufs, zeroPad_block (n := n * blockSize - c.length)]
    · rfl
    · rw [hn] at hi
      have := Nat.mul_le_mul_right blockSize hi
      rw [Nat.succ_mul] at this
      omega
  have hpadded : (c ++ List.replicate (n * blockSize - c.length) 0).length = n * blockSize := by
    rw [List.length_append, List.length_replicate, Nat.add_sub_cancel' hroom]
  have hpiece : ∀ i < n, piece blockSize
      (slice (covered data) (entry.blockRange.1 * blockSize) (n * blockSize)) i =
        slice (covered data) ((entry.blockRange.1 + i) * blockSize) blockSize := by
    intro i hi
    have := Nat.mul_le_mul_right blockSize hi
    rw [Nat.succ_mul] at this
    change slice _ _ _ = _
    rw [slice_slice this, Nat.add_mul]
  constructor
  · intro hpass
    apply eq_of_piece_eq hpadded
    · rw [length_slice, length_covered h, ← Nat.sub_mul]
      cases n with
      | zero => simp
      | succ m =>
        -- the last block is in the tree, so the data does not end before it
        have hlast := (hpass m (by omega)).1
        apply Nat.min_eq_left
        exact Nat.mul_le_mul_right _ (by omega)
    · intro i hi
      obtain ⟨hin, heq⟩ := hpass i (by omega)
      rw [← hbuf i (by omega), heq, hpiece i hi, zeroPad_block_covered h hin]
  · intro heq i hi
    have hlen := congrArg List.length heq
    rw [hpadded, length_slice, length_covered h, ← Nat.sub_mul] at hlen
    have hcount : n ≤ blockCount data - entry.blockRange.1 :=
      Nat.le_of_mul_le_mul_right (by omega) blockSize_pos
    have hin : entry.blockRange.1 + i < blockCount data := by omega
    rw [hbuf i hi, heq, hpiece i (by omega), zeroPad_block_covered h hin]
    exact ⟨hin, rfl⟩

/-! ### Files -/

/-- Every file of the manifest has the bytes that it had. -/
def SameContents (files : List FileEntry) (pinned : σ) (dir : τ) : Prop :=
  ∀ f ∈ files, ∃ c, contentAt pinned f.path = .ok c ∧ contentAt dir f.path = .ok c

/-- Every file of the manifest continues as the recorded contents, put end to end, do. -/
def AllContinue (frames : Nat) (files : List FileEntry) (pinned : σ) (dir : τ) : Prop :=
  ∃ recorded, layerFiles frames pinned = .ok recorded ∧
    ∀ f ∈ files, ∃ c, contentAt dir f.path = .ok c ∧ Continues (concatenated recorded) f c

/-- No collision among what was hashed for the layer and what is hashed to check the
directory, nor a block with the hash that stands for padding. -/
def ScanTrusted (sha256 : Bytes → Hash256) (frames : Nat) (pinned : σ) (dir : τ) : Prop :=
  ∀ data files, layerData sha256 frames pinned = .ok (data, files) →
    ∀ f ∈ files, ∀ c, contentAt dir f.path = .ok c →
      ∀ i < (checkedBufs f (readBlocks c)).length,
        CollisionFree sha256 (hashedByBuild sha256 data ++
          hashedByVerify sha256 (build sha256 data) (f.blockRange.1 + i) (block c i)) ∧
        hashBlock sha256 (block c i) ≠ zeroHash

/-- The block range of a file is as long as the file. -/
theorem Placed.blockRange {f : FileEntry} (h : Placed data f c) :
    f.blockRange.2 = f.blockRange.1 + (readBlocks c).length := by
  rw [h.range, length_readBlocks]

/-- A file that lies in the data continues as the data does. -/
theorem Placed.continues {f : FileEntry} (h : data.length % blockSize = 0) (hplaced : Placed data f c) :
    Continues data f c := by
  have hbufs : checkedBufs f (readBlocks c) = readBlocks c := by
    rw [checkedBufs, hplaced.blockRange, Nat.sub_self, List.replicate_zero, List.append_nil]
  rw [← passes_readBlocks_iff h]
  intro i hi
  have hlen := length_readBlocks c
  rw [hbufs] at hi
  obtain ⟨hin, hblock⟩ := block_placed hplaced (i := i) (by unfold blockSize at *; omega)
  rw [getElem_checkedBufs]
  exact ⟨hin, hblock.symm⟩

/-- The check of one file misses nothing exactly if its content continues as the data does. -/
theorem misses_eq_zero_iff_continues {f : FileEntry} (h : data.length % blockSize = 0)
    (htree : layer.tree = build sha256 data) (hroot : layer.rootHash = rootHash (build sha256 data))
    (htrust : ∀ i < (checkedBufs f (readBlocks c)).length,
      CollisionFree sha256 (hashedByBuild sha256 data ++
        hashedByVerify sha256 (build sha256 data) (f.blockRange.1 + i) (block c i)) ∧
      hashBlock sha256 (block c i) ≠ zeroHash) :
    misses sha256 layer f.blockRange.1 (checkedBufs f (readBlocks c)) = 0 ↔ Continues data f c := by
  rw [misses_eq_zero_iff, ← passes_readBlocks_iff h, htree, hroot]
  unfold Passes
  apply forall_congr'
  intro i
  apply forall_congr'
  intro hi
  obtain ⟨hfree, hzero⟩ := htrust i hi
  rw [getElem_checkedBufs]
  exact verifyBlock_root_iff sha256 data _ _ hfree hzero

/-- The check reports no failure exactly if every file continues as the data does. -/
theorem fullCheck_passes_iff (layer : VerifiedLayer) {inner : σ} (h : data.length % blockSize = 0)
    (htree : layer.tree = build sha256 data) (hroot : layer.rootHash = rootHash (build sha256 data))
    (hreadable : ∀ f ∈ layer.manifest.files, ∃ c, contentAt inner f.path = .ok c)
    (htrust : ∀ f ∈ layer.manifest.files, ∀ c, contentAt inner f.path = .ok c →
      ∀ i < (checkedBufs f (readBlocks c)).length,
        CollisionFree sha256 (hashedByBuild sha256 data ++
          hashedByVerify sha256 (build sha256 data) (f.blockRange.1 + i) (block c i)) ∧
        hashBlock sha256 (block c i) ≠ zeroHash) :
    (∃ n, fullCheck sha256 layer inner = .ok (n, 0)) ↔
      ∀ f ∈ layer.manifest.files, ∃ c, contentAt inner f.path = .ok c ∧ Continues data f c := by
  choose! content hcontent using hreadable
  have hbufs : ∀ f ∈ layer.manifest.files,
      (readBlocks <$> contentAt inner f.path : VfsResult (List Bytes)) =
        .ok (readBlocks (content f)) := by
    intro f hf
    rw [hcontent f hf]
    rfl
  -- the misses of all files add up to zero only if each file has none
  rw [fullCheck_eq_scanFiles, scanFiles_eq_ok hbufs]
  simp only [Except.ok.injEq, Prod.mk.injEq, exists_and_right, exists_eq', true_and,
    List.sum_eq_zero_iff_forall_eq_nat, List.forall_mem_map]
  apply forall_congr'
  intro f
  apply forall_congr'
  intro hf
  rw [misses_eq_zero_iff_continues h htree hroot (htrust f hf _ (hcontent f hf))]
  constructor
  · intro hcontinues
    exact ⟨_, hcontent f hf, hcontinues⟩
  · rintro ⟨c, hc, hcontinues⟩
    obtain rfl := Except.ok.inj (hc.symm.trans (hcontent f hf))
    exact hcontinues

/-- The check finds exactly the tampering exactly if: where every file continues, up to zero
padding, as the recorded contents put end to end do, every file has the bytes that it had. -/
theorem fullCheck_exact_iff {frames : Nat} {pinned : σ} {dir : τ} {tree : MerkleTree}
    {mf : LayerManifest} (hbuild : buildFromVfs sha256 frames pinned = .ok (tree, mf))
    (onFailure : OnFailure) (hreadable : ∀ f ∈ mf.files, ∃ c, contentAt dir f.path = .ok c)
    (htrust : ScanTrusted sha256 frames pinned dir) :
    ((∃ n, fullCheck sha256 ⟨tree, mf, tree.rootHash, onFailure⟩ dir = .ok (n, 0)) ↔
        SameContents mf.files pinned dir) ↔
      (AllContinue frames mf.files pinned dir → SameContents mf.files pinned dir) := by
  obtain ⟨⟨data, entries⟩, hdata, hbuild⟩ := except_bind_eq_ok.mp hbuild
  cases hbuild
  obtain ⟨recorded, hrecorded, rfl⟩ := layerData_eq_ok hdata
  have haligned := length_concatenated recorded
  have hcheck := fullCheck_passes_iff ⟨build sha256 (concatenated recorded), _,
    rootHash (build sha256 (concatenated recorded)), onFailure⟩ haligned rfl rfl hreadable
      (htrust _ _ hdata)
  have hcontinue : AllContinue frames entries pinned dir ↔
      ∀ f ∈ entries, ∃ c, contentAt dir f.path = .ok c ∧ Continues (concatenated recorded) f c := by
    constructor
    · rintro ⟨recorded', hrecorded', h⟩
      obtain rfl := Except.ok.inj (hrecorded.symm.trans hrecorded')
      exact h
    · exact fun h => ⟨recorded, hrecorded, h⟩
  -- what was not changed continues
  have hsame : SameContents entries pinned dir → AllContinue frames entries pinned dir := by
    intro hsame
    refine ⟨recorded, hrecorded, fun f hf => ?_⟩
    obtain ⟨c, hpinned, hc⟩ := hsame f hf
    obtain ⟨-, c', -, hc', -, hplaced⟩ := placed_of_mem hdata hf
    obtain rfl := Except.ok.inj (hc'.symm.trans hpinned)
    exact ⟨c', hc, hplaced.continues haligned⟩
  rw [hcheck, ← hcontinue]
  exact ⟨fun h => h.mp, fun h => ⟨h, hsame⟩⟩

/-! ### A file with a zero behind it -/

open VerifiedReader

/-- The layer with one file, where a zero was added to the file. -/
def extendedLayer : Tree := Tree.ofEntries [(["f".toList], .file [1, 0])]

/-- The pinned layer with one file. -/
def oneBytePinned : VerifiedLayer :=
  ⟨⟨[secondDigest], 1, 1⟩, oneByteManifest, secondDigest, .reject⟩

/-- A file that is padded to the block of the layer, or to another byte, does not collide. -/
theorem scanTrusted_oneByte {dir : Tree} (hdir : contentAt dir ["f".toList] = .ok c)
    (hlen : (checkedBufs oneByteEntry (readBlocks c)).length = 1) (hblock : block c 0 = c)
    (hc : zeroPad c = zeroPad [1] ∨ zeroPad c = zeroPad [2]) :
    ScanTrusted oneByteSha256 8 oneByteLayer dir := by
  intro data files hdata f hf c' hc' i hi
  obtain ⟨rfl, rfl⟩ := Prod.mk.inj (Except.ok.inj (layerData_oneByte.symm.trans hdata))
  obtain rfl := List.mem_singleton.mp hf
  obtain rfl := Except.ok.inj (hdir.symm.trans hc')
  obtain rfl : i = 0 := by omega
  have hbuild : hashedByBuild oneByteSha256 (alignBlocks [1]) = [zeroPad [1]] := by
    rw [hashedByBuild_block (length_alignBlocks_one 1)]
    rfl
  have hmem : zeroPad c ∈ [zeroPad [1], zeroPad [2]] := by
    rcases hc with hc | hc
    · rw [hc]
      exact List.mem_cons_self
    · rw [hc]
      exact List.mem_cons_of_mem _ List.mem_cons_self
  rw [hblock]
  refine collisionFree_and_ne_zeroHash (by rw [digests_oneByte]; decide)
    (by rw [digests_oneByte]; decide) (fun x hx => ?_) fun x hx => ?_
  · rw [hbuild] at hx
    rw [List.mem_singleton.mp hx]
    exact List.mem_cons_self
  · rw [build_oneByte, hashedByVerify_leaf c rfl] at hx
    rwa [List.mem_singleton.mp hx]

/-- The file with a zero behind it passes. -/
theorem extended_passes :
    buildFromVfs oneByteSha256 8 oneByteLayer = .ok (oneBytePinned.tree, oneByteManifest) ∧
      ScanTrusted oneByteSha256 8 oneByteLayer extendedLayer ∧
      fullCheck oneByteSha256 oneBytePinned extendedLayer = .ok (1, 0) ∧
      ¬ SameContents oneByteManifest.files oneByteLayer extendedLayer := by
  refine ⟨buildFromVfs_oneByte, ?_, by decide +kernel, ?_⟩
  · have hpad : zeroPad [1, 0] = zeroPad [1] := by
      have hlt : ([1, 0] : Bytes).length < blockSize := by decide
      rw [zeroPad, if_pos hlt, zeroPad, if_pos (by decide)]
      exact congrArg (List.cons 1) List.replicate_succ.symm
    exact scanTrusted_oneByte (c := [1, 0]) rfl (by decide) (by decide) (Or.inl hpad)
  · intro hsame
    obtain ⟨c, hpinned, hc⟩ := hsame oneByteEntry List.mem_cons_self
    obtain rfl : [1] = c := Except.ok.inj hpinned
    exact absurd hc (by decide)

theorem fullCheck_exact_iff_other :
    ¬ ∃ n, fullCheck oneByteSha256 oneBytePinned otherLayer = .ok (n, 0) := by
  intro hpasses
  have hreadable : ∀ f ∈ oneByteManifest.files, ∃ c, contentAt otherLayer f.path = .ok c := by
    intro f hf
    obtain rfl := List.mem_singleton.mp hf
    exact ⟨[2], rfl⟩
  have hcontinue : ¬ AllContinue 8 oneByteManifest.files oneByteLayer otherLayer := by
    rintro ⟨recorded, hrecorded, hall⟩
    obtain rfl := Except.ok.inj (layerFiles_oneByte.symm.trans hrecorded)
    obtain ⟨c, hc, hcontinues⟩ := hall oneByteEntry List.mem_cons_self
    obtain rfl : [2] = c := Except.ok.inj hc
    have hhead := congrArg List.head? hcontinues
    exact absurd hhead (by decide +kernel)
  have hsame := ((fullCheck_exact_iff buildFromVfs_oneByte .reject hreadable
    (scanTrusted_oneByte (c := [2]) rfl (by decide) (by decide) (Or.inr rfl))).mpr
      fun h => absurd h hcontinue).mp hpasses
  obtain ⟨c, hpinned, hc⟩ := hsame oneByteEntry List.mem_cons_self
  obtain rfl : [1] = c := Except.ok.inj hpinned
  exact absurd hc (by decide)

end MerkleTree

end Rspacefs
