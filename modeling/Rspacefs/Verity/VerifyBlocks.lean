import Rspacefs.Lib.Source
import Rspacefs.Verity.FullCheck

/-!
# Verifying the blocks of a range

`verify_file_blocks` and `read_raw_block` of `rspacefs-verity/src/verity.rs`: each block of the
range is read anew from the backing file, up to its end, and compared with the tree. The file
is a source that may give less than it is asked for.

## Main definitions

* `BlockCache` — the blocks that were verified in this session
* `readRawBlock`, `verifyFileBlocks` — the source's functions
* `rawBlock` — what one read gives behind the bytes skipped

## Main results

* `verifyFileBlocks_returns_iff` — the check of a range returns exactly if each block passes
-/

namespace Rspacefs

open Lib MerkleTree

/-- `VerifiedBlockCache`: the blocks marked as verified, among those that it covers. -/
structure BlockCache where
  blockCount : Nat
  verified : List Nat
  deriving DecidableEq

namespace BlockCache

def new (blockCount : Nat) : BlockCache := ⟨blockCount, []⟩

/-- Check if a block has been verified. -/
def isVerified (cache : BlockCache) (blockIndex : Nat) : Bool :=
  if cache.blockCount ≤ blockIndex then false else decide (blockIndex ∈ cache.verified)

/-- Mark a block as verified. -/
def markVerified (cache : BlockCache) (blockIndex : Nat) : BlockCache :=
  if cache.blockCount ≤ blockIndex then cache
  else { cache with verified := blockIndex :: cache.verified }

/-- A mark does not count for another block. -/
theorem isVerified_markVerified {cache : BlockCache} {i j : Nat} (h : j ≠ i) :
    (cache.markVerified i).isVerified j = cache.isVerified j := by
  unfold markVerified
  split
  · rfl
  · unfold isVerified
    simp [h]

end BlockCache

/-- What `verify_file_blocks` fails with. -/
inductive RangeError
  /-- `verity: block {globalBlock} verification failed`. -/
  | invalidData (globalBlock : Nat)
  | inner (e : VfsError)
  deriving DecidableEq, Repr

namespace MerkleTree

variable {σ : Type} [FileSystem σ] (sha256 : Bytes → Hash256)

/-- What one `read` gives behind the first blocks of a file, where the calls on the file give
as many bytes as `gives` says. -/
def rawBlock (content : Bytes) (gives : Nat → Nat) (blockIdx : Nat) : Bytes :=
  (((⟨content, gives⟩ : Source UInt8).skip blockSize (blockIdx * blockSize)).read blockSize).1

/-- Read a raw block from the backing file. -/
def readRawBlock (inner : σ) (path : Path) (gives : Nat → Nat) (blockIdx : Nat) :
    Except RangeError Bytes :=
  match contentAt inner path with
  | .error e => .error (.inner e)
  | .ok content => .ok (rawBlock content gives blockIdx)

/-- One block of `verify_file_blocks`. The block is skipped if the cache is in use and has it. -/
def verifyOne (layer : VerifiedLayer) (cacheEnabled : Bool) (inner : σ) (path : Path)
    (gives : Nat → Nat) (globalBlock blockIdx : Nat) : EStateM RangeError BlockCache Unit := do
  let cache ← get
  if cacheEnabled && cache.isVerified globalBlock then return ()
  else
    let blockData ← ask fun _ => readRawBlock inner path gives blockIdx
    if verifyBlock sha256 layer.tree globalBlock blockData layer.rootHash then
      modify (·.markVerified globalBlock)
    else match layer.onFailure with
      | .reject => throw (.invalidData globalBlock)
      | .warn => return ()

/-- How many blocks a range touches. -/
def spannedBlocks (len offset : Nat) : Nat := (offset % blockSize + len + blockSize - 1) / blockSize

/-- Verify the blocks that cover a range of a file. The file is opened for each block: `gives`
says how many bytes each call gives after each opening. -/
def verifyFileBlocks (layer : VerifiedLayer) (cacheEnabled : Bool) (inner : σ)
    (gives : Nat → Nat → Nat) (path : Path) (len offset : Nat) :
    EStateM RangeError BlockCache Unit :=
  match layer.manifest.files.find? (·.path = path) with
  | none => return ()
  | some entry =>
    (List.range (spannedBlocks len offset)).forM fun i =>
      verifyOne sha256 layer cacheEnabled inner path (gives i)
        (entry.blockRange.1 + offset / blockSize + i) (offset / blockSize + i)

/-! ### Which blocks pass -/

variable {sha256} {layer : VerifiedLayer} {cacheEnabled : Bool} {inner : σ} {path : Path}
  {gives : Nat → Nat → Nat} {cache : BlockCache} {len offset : Nat}

/-- The block is skipped, or read and accepted, or read and served with a warning. -/
def BlockPasses (sha256 : Bytes → Hash256) (layer : VerifiedLayer) (cacheEnabled : Bool)
    (inner : σ) (path : Path) (gives : Nat → Nat) (cache : BlockCache)
    (globalBlock blockIdx : Nat) : Prop :=
  (cacheEnabled && cache.isVerified globalBlock) = true ∨
    ∃ blockData, readRawBlock inner path gives blockIdx = .ok blockData ∧
      (verifyBlock sha256 layer.tree globalBlock blockData layer.rootHash = true ∨
        layer.onFailure = .warn)

theorem verifyOne_returns_iff {gives : Nat → Nat} {globalBlock blockIdx : Nat} :
    Returns (verifyOne sha256 layer cacheEnabled inner path gives globalBlock blockIdx) cache ↔
      BlockPasses sha256 layer cacheEnabled inner path gives cache globalBlock blockIdx := by
  unfold BlockPasses
  change Returns (if cacheEnabled && cache.isVerified globalBlock then _ else _ :
    EStateM RangeError BlockCache Unit) cache ↔ _
  by_cases hskip : (cacheEnabled && cache.isVerified globalBlock) = true
  · rw [if_pos hskip]
    exact iff_of_true ⟨(), cache, rfl⟩ (Or.inl hskip)
  · rw [if_neg hskip, Returns.ask_bind_iff, or_iff_right hskip]
    apply exists_congr
    intro blockData
    apply and_congr_right
    intro _
    by_cases haccepted : verifyBlock sha256 layer.tree globalBlock blockData layer.rootHash = true
    · rw [if_pos haccepted]
      exact iff_of_true ⟨(), _, rfl⟩ (Or.inl haccepted)
    · rw [if_neg haccepted]
      cases hfailure : layer.onFailure with
      | reject =>
        refine iff_of_false ?_ (by simp [haccepted])
        rintro ⟨_, _, hrun⟩
        cases hrun
      | warn => exact iff_of_true ⟨(), cache, rfl⟩ (Or.inr rfl)

/-- A step marks no other block. -/
theorem verifyOne_keeps {gives : Nat → Nat} {globalBlock blockIdx j : Nat} (h : j ≠ globalBlock) :
    Keeps (fun cache : BlockCache => cache.isVerified j)
      (verifyOne sha256 layer cacheEnabled inner path gives globalBlock blockIdx) := by
  refine Keeps.bind Keeps.get fun cache => Keeps.ite (Keeps.pure _) ?_
  refine Keeps.bind (Keeps.ask _) fun blockData => Keeps.ite ?_ ?_
  · exact Keeps.modify fun cache => BlockCache.isVerified_markVerified h
  · cases layer.onFailure with
    | reject => exact Keeps.throw _
    | warn => exact Keeps.pure _

/-- The blocks are different, so each passes or not with the marks that were there before. -/
theorem forM_verifyOne_returns_iff {first firstIdx : Nat} {is : List Nat} (hnodup : is.Nodup) :
    Returns (is.forM fun i => verifyOne sha256 layer cacheEnabled inner path (gives i) (first + i)
      (firstIdx + i)) cache ↔
      ∀ i ∈ is, BlockPasses sha256 layer cacheEnabled inner path (gives i) cache (first + i)
        (firstIdx + i) := by
  induction is generalizing cache with
  | nil => exact iff_of_true ⟨_, cache, rfl⟩ (fun _ hi => absurd hi List.not_mem_nil)
  | cons i is ih =>
    obtain ⟨hi, hnodup⟩ := List.nodup_cons.mp hnodup
    -- a block that was just marked is none of those to come
    have hlater : ∀ cache', (verifyOne sha256 layer cacheEnabled inner path (gives i) (first + i)
        (firstIdx + i)).run cache = .ok () cache' → ∀ j ∈ is,
          (BlockPasses sha256 layer cacheEnabled inner path (gives j) cache' (first + j)
            (firstIdx + j) ↔
          BlockPasses sha256 layer cacheEnabled inner path (gives j) cache (first + j)
            (firstIdx + j)) := by
      intro cache' hrun j hj
      have hne : first + j ≠ first + i := by
        intro heq
        obtain rfl : j = i := by omega
        exact hi hj
      have hsame : cache'.isVerified (first + j) = cache.isVerified (first + j) := by
        have hkeep : Keeps (fun cache : BlockCache => cache.isVerified (first + j))
            (verifyOne sha256 layer cacheEnabled inner path (gives i) (first + i) (firstIdx + i)) :=
          verifyOne_keeps hne
        have hkeep := hkeep.finalState cache
        rw [finalState, hrun] at hkeep
        exact hkeep
      unfold BlockPasses
      rw [hsame]
    change Returns (verifyOne sha256 layer cacheEnabled inner path (gives i) (first + i)
      (firstIdx + i) >>= fun _ => is.forM _) cache ↔ _
    rw [Returns.bind_iff, List.forall_mem_cons, ← verifyOne_returns_iff]
    constructor
    · rintro ⟨_, cache', hrun, hrest⟩
      refine ⟨⟨_, cache', hrun⟩, fun j hj => ?_⟩
      rw [← hlater cache' hrun j hj]
      exact (ih hnodup).mp hrest j hj
    · rintro ⟨⟨_, cache', hrun⟩, hrest⟩
      refine ⟨_, cache', hrun, (ih hnodup).mpr fun j hj => ?_⟩
      rw [hlater cache' hrun j hj]
      exact hrest j hj

/-- The check of a range returns exactly if each of its blocks passes. -/
theorem verifyFileBlocks_returns_iff {entry : FileEntry}
    (hfind : layer.manifest.files.find? (·.path = path) = some entry) :
    Returns (verifyFileBlocks sha256 layer cacheEnabled inner gives path len offset) cache ↔
      ∀ i < spannedBlocks len offset,
        BlockPasses sha256 layer cacheEnabled inner path (gives i) cache
          (entry.blockRange.1 + offset / blockSize + i) (offset / blockSize + i) := by
  unfold verifyFileBlocks
  rw [hfind]
  dsimp only
  rw [forM_verifyOne_returns_iff List.nodup_range]
  simp only [List.mem_range]

/-- A block of a range inside a file is a block of the file. -/
theorem lt_of_spannedBlocks {len offset size i : Nat} (hinside : offset + len ≤ size)
    (hi : i < spannedBlocks len offset) : (offset / blockSize + i) * blockSize < size := by
  unfold spannedBlocks blockSize at *
  omega

/-- A file that is not in the manifest is not rejected. -/
theorem verifyFileBlocks_returns_of_missing
    (hfind : layer.manifest.files.find? (·.path = path) = none) :
    Returns (verifyFileBlocks sha256 layer cacheEnabled inner gives path len offset) cache := by
  unfold verifyFileBlocks
  rw [hfind]
  exact ⟨(), cache, rfl⟩

/-! ### What is read for a block -/

variable {c data : Bytes} {idx : Nat}

/-- A read that gives what it is asked for gives the block of the content. -/
theorem rawBlock_eq_block {gives : Nat → Nat} (h : ∀ k, blockSize ≤ gives k) (c : Bytes) (idx : Nat) :
    rawBlock c gives idx = block c idx := by
  have hfull : (⟨c, gives⟩ : Source UInt8).Full blockSize := h
  rw [rawBlock, Source.read, Source.rest_skip blockSize_pos,
    (hfull.skip _).amount blockSize_pos (Nat.le_refl _)]
  rfl

/-- Against the tree of the data, a buffer passes for a block of a file that lies in the data
exactly if it is that block, up to zero padding. -/
theorem verifyBlock_placed_iff {entry : FileEntry} {buf : Bytes} (hplaced : Placed data entry c)
    (hidx : idx * blockSize < c.length)
    (hfree : CollisionFree sha256 (hashedByBuild sha256 data ++
      hashedByVerify sha256 (build sha256 data) (entry.blockRange.1 + idx) buf))
    (hzero : hashBlock sha256 buf ≠ zeroHash) :
    verifyBlock sha256 (build sha256 data) (entry.blockRange.1 + idx) buf
      (rootHash (build sha256 data)) = true ↔ zeroPad buf = zeroPad (block c idx) := by
  obtain ⟨hin, hblock⟩ := block_placed hplaced hidx
  rw [verifyBlock_root_iff sha256 data _ _ hfree hzero, hblock, leafCount_build, and_iff_right hin]

end MerkleTree

end Rspacefs
