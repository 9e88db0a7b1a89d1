import Mathlib.Algebra.Group.Nat.Defs
import Mathlib.Data.List.Nodup
import Mathlib.Data.Nat.Log
import Rspacefs.Lib.Heap
import Rspacefs.Vfs.FileSystem

/-!
# The Merkle tree of a layer

`MerkleTree` of `rspacefs-verity/src/verity.rs`: a SHA-256 tree over 4 KB blocks,
stored as a flat array in level order. SHA-256 itself is a parameter. No function
into 32 bytes is injective on all inputs, so the theorem about verification asks
for no collision among the inputs that are hashed: those of `build` and those of
the walk that `verify_block` makes.

## Main definitions

* `MerkleTree.build`, `MerkleTree.verifyBlock` — the source's functions
* `MerkleTree.hashedByBuild`, `MerkleTree.hashedByVerify` — what they hash
* `CollisionFree` — no two different inputs of a list have the same hash

## Main results

* `MerkleTree.isHeap_build` — every interior node is the hash of its children
* `MerkleTree.node_leaf` — the leaves are the hashes of the blocks, then zero hashes
* `MerkleTree.verifyBlock_root_iff` — verification against the root accepts exactly
  the block of the data
-/

namespace Rspacefs

open Lib

/-- Block size for Merkle tree leaves (4 KB, matches filesystem page size). -/
def blockSize : Nat := 4096

/-- SHA-256 hash output size in bytes. -/
def hashSize : Nat := 32

/-- A 32-byte SHA-256 hash. -/
abbrev Hash256 := { h : Bytes // h.length = hashSize }

/-- Zero hash, used for padding when the tree needs a power-of-two leaf count. -/
def zeroHash : Hash256 := ⟨List.replicate hashSize 0, List.length_replicate⟩

/-- Different inputs of `l` have different hashes. -/
def CollisionFree (sha256 : Bytes → Hash256) (l : List Bytes) : Prop :=
  ∀ x ∈ l, ∀ y ∈ l, sha256 x = sha256 y → x = y

/-- Inputs with different hashes have no collision. -/
theorem CollisionFree.of_nodup {sha256 : Bytes → Hash256} {l inputs : List Bytes}
    (hnodup : (inputs.map sha256).Nodup) (hl : ∀ x ∈ l, x ∈ inputs) : CollisionFree sha256 l :=
  fun x hx y hy h => List.inj_on_of_nodup_map hnodup (hl x hx) (hl y hy) h

/-- A complete Merkle hash tree over a set of data blocks, in level order. -/
structure MerkleTree where
  nodes : List Hash256
  leafCount : Nat
  paddedLeafCount : Nat
  deriving DecidableEq

/-- What is hashed for a block: short blocks are zero-padded. -/
def zeroPad (data : Bytes) : Bytes :=
  if data.length < blockSize then data ++ List.replicate (blockSize - data.length) 0 else data

/-- `usize::next_power_of_two`. -/
def nextPowerOfTwo (n : Nat) : Nat := 2 ^ Nat.clog 2 n

theorem le_nextPowerOfTwo (n : Nat) : n ≤ nextPowerOfTwo n := Nat.le_pow_clog Nat.one_lt_two n

namespace MerkleTree

variable (sha256 : Bytes → Hash256)

/-- SHA-256 hash of a data block (up to `blockSize` bytes). -/
def hashBlock (data : Bytes) : Hash256 := sha256 (zeroPad data)

/-- SHA-256 hash of two concatenated hashes (interior node). -/
def hashPair (left right : Hash256) : Hash256 := sha256 (left.val ++ right.val)

/-- The `i`-th block of the data; the last one may be shorter. -/
def block (data : Bytes) (i : Nat) : Bytes := (data.drop (i * blockSize)).take blockSize

/-- The number of blocks; empty data gets one leaf. -/
def blockCount (data : Bytes) : Nat :=
  if data.isEmpty then 1 else (data.length + blockSize - 1) / blockSize

/-- Build a Merkle tree from raw data blocks. -/
def build (data : Bytes) : MerkleTree :=
  let leafCount := blockCount data
  let padded := nextPowerOfTwo leafCount
  let leaves := (List.range leafCount).map fun i => hashBlock sha256 (block data i)
  -- pad with zero hashes to reach the power-of-two count
  let leaves := leaves ++ List.replicate (padded - leafCount) zeroHash
  -- the leaves stand at the end of an array of `2 * padded - 1` nodes
  let leafStart := padded - 1
  let nodes := List.replicate leafStart zeroHash ++ leaves
  { nodes := Heap.fill (hashPair sha256) zeroHash leafStart nodes
    leafCount
    paddedLeafCount := padded }

/-- Indexing into the array. -/
def node (t : MerkleTree) (i : Nat) : Hash256 := t.nodes.getD i zeroHash

/-- The root hash: the single trust anchor for the entire tree. -/
def rootHash (t : MerkleTree) : Hash256 := t.node 0

/-- The index of the leaf of a block. -/
def leafNode (t : MerkleTree) (blockIndex : Nat) : Nat := t.paddedLeafCount - 1 + blockIndex

/-- Verify that a data block at `blockIndex` matches the tree. -/
def verifyBlock (t : MerkleTree) (blockIndex : Nat) (blockData : Bytes)
    (expectedRoot : Hash256) : Bool :=
  if t.paddedLeafCount ≤ blockIndex then false
  else
    decide (Heap.climb (hashPair sha256) t.node (t.leafNode blockIndex)
      (hashBlock sha256 blockData) = expectedRoot)

/-! ### What is hashed -/

/-- Every input that `build` hashes: the blocks, then the pairs of children. -/
def hashedByBuild (data : Bytes) : List Bytes :=
  let t := build sha256 data
  (List.range t.leafCount).map (fun i => zeroPad (block data i)) ++
    (List.range (t.paddedLeafCount - 1)).map fun j =>
      (t.node (2 * j + 1)).val ++ (t.node (2 * j + 2)).val

/-- Every input that `verify_block` hashes. -/
def hashedByVerify (t : MerkleTree) (blockIndex : Nat) (blockData : Bytes) : List Bytes :=
  zeroPad blockData ::
    (Heap.climbPairs (hashPair sha256) t.node (t.leafNode blockIndex)
      (hashBlock sha256 blockData)).map fun x => x.1.val ++ x.2.val

variable {sha256} {data : Bytes} {i : Nat}

/-- Where the walk starts at the root, the block is all that is hashed. -/
theorem hashedByVerify_leaf {t : MerkleTree} (b : Bytes) (h : t.leafNode i = 0) :
    hashedByVerify sha256 t i b = [zeroPad b] := by
  rw [hashedByVerify, h, Heap.climbPairs_zero]
  rfl

/-- Inputs with different hashes, none of them that of padding, tell a block that is verified
from what was hashed. -/
theorem collisionFree_and_ne_zeroHash {t : MerkleTree} {b : Bytes} {inputs : List Bytes}
    (hnodup : (inputs.map sha256).Nodup) (hzero : zeroHash ∉ inputs.map sha256)
    (hbuild : ∀ x ∈ hashedByBuild sha256 data, x ∈ inputs)
    (hverify : ∀ x ∈ hashedByVerify sha256 t i b, x ∈ inputs) :
    CollisionFree sha256 (hashedByBuild sha256 data ++ hashedByVerify sha256 t i b) ∧
      hashBlock sha256 b ≠ zeroHash := by
  constructor
  · refine CollisionFree.of_nodup hnodup fun x hx => ?_
    rcases List.mem_append.mp hx with hx | hx
    · exact hbuild x hx
    · exact hverify x hx
  · intro hblock
    have hb : zeroPad b ∈ inputs := hverify _ List.mem_cons_self
    rw [← hblock] at hzero
    exact hzero (List.mem_map_of_mem hb)

/-! ### The built tree -/

theorem blockCount_pos (data : Bytes) : 0 < blockCount data := by
  unfold blockCount
  cases data with
  | nil => simp
  | cons b data =>
    simp only [List.isEmpty_cons, Bool.false_eq_true, if_false, List.length_cons, blockSize]
    omega

@[simp] theorem leafCount_build (sha256 : Bytes → Hash256) (data : Bytes) :
    (build sha256 data).leafCount = blockCount data := rfl

@[simp] theorem paddedLeafCount_build (sha256 : Bytes → Hash256) (data : Bytes) :
    (build sha256 data).paddedLeafCount = nextPowerOfTwo (blockCount data) := rfl

theorem paddedLeafCount_pos (sha256 : Bytes → Hash256) (data : Bytes) :
    0 < (build sha256 data).paddedLeafCount :=
  (blockCount_pos data).trans_le (le_nextPowerOfTwo _)

theorem leafCount_le (sha256 : Bytes → Hash256) (data : Bytes) :
    (build sha256 data).leafCount ≤ (build sha256 data).paddedLeafCount :=
  le_nextPowerOfTwo _

/-- Every interior node is the hash of its children. -/
theorem isHeap_build (sha256 : Bytes → Hash256) (data : Bytes) :
    Heap.IsHeap (hashPair sha256) (build sha256 data).node
      ((build sha256 data).paddedLeafCount - 1) :=
  Heap.isHeap_fill _ (by simp)

/-- The leaves are the hashes of the blocks, then zero hashes. -/
theorem node_leaf (hi : i < (build sha256 data).paddedLeafCount) :
    (build sha256 data).node ((build sha256 data).leafNode i) =
      if i < blockCount data then hashBlock sha256 (block data i) else zeroHash := by
  have hle := leafCount_le sha256 data
  rw [leafNode]
  simp only [leafCount_build, paddedLeafCount_build] at hi hle ⊢
  change (Heap.fill (hashPair sha256) zeroHash _ _).getD _ zeroHash = _
  rw [Heap.getD_fill_of_le _ (Nat.le_add_right _ _), List.getD_eq_getElem?_getD,
    List.getElem?_append_right (by simp)]
  simp only [List.length_replicate, Nat.add_sub_cancel_left]
  by_cases h : i < blockCount data
  · rw [List.getElem?_append_left (by simpa using h)]
    simp [h]
  · rw [List.getElem?_append_right (by simpa using h), if_neg h,
      List.getElem?_replicate_of_lt (by simp; omega), Option.getD_some]

/-! ### Verification -/

/-- Two hashes can be read back from their concatenation. -/
theorem val_append_inj {a b c d : Hash256} (h : a.val ++ b.val = c.val ++ d.val) :
    (a, b) = (c, d) := by
  obtain ⟨h₁, h₂⟩ := List.append_inj h (a.2.trans c.2.symm)
  rw [Subtype.ext h₁, Subtype.ext h₂]

theorem hashPair_inj {l : List Bytes} (hfree : CollisionFree sha256 l) {a b c d : Hash256}
    (hab : a.val ++ b.val ∈ l) (hcd : c.val ++ d.val ∈ l)
    (h : hashPair sha256 a b = hashPair sha256 c d) : (a, b) = (c, d) :=
  val_append_inj (hfree _ hab _ hcd h)

/-- The walk from the position of a block ends in the root exactly for a block of the
data, up to zero padding. -/
theorem climb_eq_rootHash_iff {b : Bytes}
    (hfree : CollisionFree sha256
      (hashedByBuild sha256 data ++ hashedByVerify sha256 (build sha256 data) i b))
    (hzero : hashBlock sha256 b ≠ zeroHash) (hi : i < (build sha256 data).paddedLeafCount) :
    Heap.climb (hashPair sha256) (build sha256 data).node ((build sha256 data).leafNode i)
        (hashBlock sha256 b) = rootHash (build sha256 data) ↔
      i < (build sha256 data).leafCount ∧ zeroPad b = zeroPad (block data i) := by
  have hwalk : Heap.climb (hashPair sha256) (build sha256 data).node
      ((build sha256 data).leafNode i) (hashBlock sha256 b) = (build sha256 data).node 0 ↔
      hashBlock sha256 b = (build sha256 data).node ((build sha256 data).leafNode i) := by
    refine Heap.climb_eq_root_iff (isHeap_build sha256 data)
      (by unfold leafNode; omega) fun x hx j hj h => ?_
    refine hashPair_inj hfree (List.mem_append_right _ ?_) (List.mem_append_left _ ?_) h
    · exact List.mem_cons_of_mem _ (List.mem_map.mpr ⟨x, hx, rfl⟩)
    · exact List.mem_append_right _ (List.mem_map.mpr ⟨j, List.mem_range.mpr hj, rfl⟩)
  rw [rootHash, hwalk, node_leaf hi]
  split
  · rename_i hleaf
    refine ⟨fun h => ⟨hleaf, ?_⟩, fun h => congrArg sha256 h.2⟩
    refine hfree _ (List.mem_append_right _ List.mem_cons_self) _
      (List.mem_append_left _ (List.mem_append_left _ ?_)) h
    exact List.mem_map.mpr ⟨i, List.mem_range.mpr hleaf, rfl⟩
  · rename_i hleaf
    exact ⟨fun h => absurd h hzero, fun h => absurd h.1 hleaf⟩

/-- Against the root of its own tree, `verify_block` accepts exactly the blocks of
the data, up to zero padding. -/
theorem verifyBlock_root_iff (sha256 : Bytes → Hash256) (data : Bytes) (i : Nat) (b : Bytes)
    (hfree : CollisionFree sha256
      (hashedByBuild sha256 data ++ hashedByVerify sha256 (build sha256 data) i b))
    (hzero : hashBlock sha256 b ≠ zeroHash) :
    verifyBlock sha256 (build sha256 data) i b (rootHash (build sha256 data)) = true ↔
      i < (build sha256 data).leafCount ∧ zeroPad b = zeroPad (block data i) := by
  have hle := leafCount_le sha256 data
  unfold verifyBlock
  split
  · simp only [Bool.false_eq_true, false_iff, not_and]
    intro hi
    omega
  · rw [decide_eq_true_iff]
    exact climb_eq_rootHash_iff hfree hzero (by omega)

/-- The SHA-256 digest of 4096 zero bytes. -/
def zeroBlockDigest : Hash256 :=
  ⟨[173, 127, 172, 178, 88, 111, 198, 233, 102, 192, 4, 215, 209, 209, 107, 2, 79, 88, 5, 255, 124,
    180, 124, 122, 133, 218, 189, 139, 72, 137, 44, 167], rfl⟩

/-- The SHA-256 digest of `zeroBlockDigest` twice. -/
def zeroPairDigest : Hash256 :=
  ⟨[144, 206, 251, 213, 216, 133, 142, 13, 223, 185, 189, 101, 215, 164, 146, 12, 131, 1, 159, 190,
    81, 73, 226, 238, 76, 43, 163, 73, 67, 161, 239, 206], rfl⟩

/-- SHA-256 on the two inputs that a tree over two zero blocks hashes. -/
def zeroSha256 (x : Bytes) : Hash256 :=
  if x.length = hashSize + hashSize then zeroPairDigest else zeroBlockDigest

/-- Two blocks of zeros. -/
def twoZeroBlocks : Bytes := List.replicate (2 * blockSize) 0

theorem blockCount_twoZeroBlocks : blockCount twoZeroBlocks = 2 := by
  rw [blockCount, twoZeroBlocks, if_neg (by rw [List.isEmpty_replicate]; decide),
    List.length_replicate]
  decide

theorem zeroPad_nil : zeroPad [] = List.replicate blockSize 0 := by
  rw [zeroPad, if_pos (by decide), List.nil_append, List.length_nil, Nat.sub_zero]

theorem zeroPad_block_twoZeroBlocks {i : Nat} (hi : i < 2) :
    zeroPad (block twoZeroBlocks i) = List.replicate blockSize 0 := by
  have hlen : min blockSize (2 * blockSize - i * blockSize) = blockSize := by
    have : i = 0 ∨ i = 1 := by omega
    rcases this with rfl | rfl <;> decide
  rw [block, twoZeroBlocks, List.drop_replicate, List.take_replicate, hlen, zeroPad,
    if_neg (by rw [List.length_replicate]; omega)]

theorem zeroSha256_zeros : zeroSha256 (List.replicate blockSize 0) = zeroBlockDigest := by
  rw [zeroSha256, if_neg (by rw [List.length_replicate]; decide)]

theorem verifyBlock_root_iff_zeros :
    verifyBlock zeroSha256 (build zeroSha256 twoZeroBlocks) 1 []
      (rootHash (build zeroSha256 twoZeroBlocks)) = true := by
  have hlog : Nat.clog 2 2 = 1 := by
    rw [Nat.clog_of_two_le (by decide) (by decide), Nat.clog_of_right_le_one (by decide)]
  have hpadded : (build zeroSha256 twoZeroBlocks).paddedLeafCount = 2 := by
    simp [paddedLeafCount_build, blockCount_twoZeroBlocks, nextPowerOfTwo, hlog]
  have hblock : hashBlock zeroSha256 [] = zeroBlockDigest := by
    rw [hashBlock, zeroPad_nil, zeroSha256_zeros]
  have hleaf : ∀ i < 2, (build zeroSha256 twoZeroBlocks).node (1 + i) = zeroBlockDigest := by
    intro i hi
    have hnode := node_leaf (hi.trans_eq hpadded.symm)
    rwa [leafNode, hpadded, blockCount_twoZeroBlocks, if_pos hi, hashBlock,
      zeroPad_block_twoZeroBlocks hi, zeroSha256_zeros] at hnode
  have hpair : Heap.pairAt (build zeroSha256 twoZeroBlocks).node 2 zeroBlockDigest =
      (zeroBlockDigest, zeroBlockDigest) := by
    rw [Heap.pairAt, if_neg (by decide)]
    exact congrArg (·, zeroBlockDigest) (hleaf 0 (by decide))
  -- only a block of zeros and the pair of two such blocks are hashed
  have hinputs : ∀ x ∈ hashedByBuild zeroSha256 twoZeroBlocks ++
      hashedByVerify zeroSha256 (build zeroSha256 twoZeroBlocks) 1 [],
      x = List.replicate blockSize 0 ∨ x = zeroBlockDigest.val ++ zeroBlockDigest.val := by
    intro x hx
    rcases List.mem_append.mp hx with hx | hx
    · rcases List.mem_append.mp hx with hx | hx
      · obtain ⟨i, hi, rfl⟩ := List.mem_map.mp hx
        rw [List.mem_range, leafCount_build, blockCount_twoZeroBlocks] at hi
        exact Or.inl (zeroPad_block_twoZeroBlocks hi)
      · obtain ⟨j, hj, rfl⟩ := List.mem_map.mp hx
        rw [List.mem_range, hpadded] at hj
        obtain rfl : j = 0 := by omega
        exact Or.inr (congrArg₂ (fun a b : Hash256 => a.val ++ b.val) (hleaf 0 (by decide))
          (hleaf 1 (by decide)))
    · rw [hashedByVerify, leafNode, hpadded, Heap.climbPairs_pos (by decide), hblock, hpair,
        Heap.climbPairs_zero, zeroPad_nil] at hx
      rcases List.mem_cons.mp hx with hx | hx
      · exact Or.inl hx
      · exact Or.inr (List.mem_singleton.mp hx)
  have hdigest : zeroBlockDigest ≠ zeroSha256 (zeroBlockDigest.val ++ zeroBlockDigest.val) := by
    decide
  refine (verifyBlock_root_iff zeroSha256 twoZeroBlocks 1 [] ?_ ?_).mpr ⟨?_, ?_⟩
  · intro x hx y hy h
    rcases hinputs x hx with rfl | rfl <;> rcases hinputs y hy with rfl | rfl
    · rfl
    · exact absurd (zeroSha256_zeros.symm.trans h) hdigest
    · exact absurd (zeroSha256_zeros.symm.trans h.symm) hdigest
    · rfl
  · rw [hblock]
    decide
  · rw [leafCount_build, blockCount_twoZeroBlocks]
    decide
  · rw [zeroPad_nil, zeroPad_block_twoZeroBlocks (by decide)]

end MerkleTree

end Rspacefs
