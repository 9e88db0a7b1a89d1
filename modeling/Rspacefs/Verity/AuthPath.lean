import Rspacefs.Verity.TreeFile

/-!
# The authentication path of a block

`auth_path` and `verify_block` of `rspacefs-verity/src/verity.rs` take the same siblings. Whoever
has only the path of a block folds it by the binary digits of the block's index, and gets the root
exactly for the blocks that `verify_block` accepts under it.

## Main results

* `authPath_folds` — the length of a path, and what folding it says
-/

namespace Rspacefs.MerkleTree

open Lib

variable {sha256 : Bytes → Hash256} {checks : Bool} {data b : Bytes} {i : Nat}

/-- What `verify_block` answers, by the path of the block alone. -/
theorem tryVerifyBlock_build_iff (hi : i < (build sha256 data).paddedLeafCount)
    (h : (build sha256 data).paddedLeafCount + i < 2 ^ 64) (root : Hash256) :
    tryVerifyBlock sha256 checks (build sha256 data) i b root = .ok true ↔
      Heap.foldBits (hashPair sha256) i
        ((Heap.siblings ((build sha256 data).leafNode i)).map (build sha256 data).node)
        (hashBlock sha256 b) = root := by
  have hclimb : Heap.climb (hashPair sha256) (build sha256 data).node
      ((build sha256 data).leafNode i) (hashBlock sha256 b) = _ := Heap.climb_leaf hi
  rw [tryVerifyBlock_eq_true_iff h, and_iff_right hi,
    and_iff_right (leafNode_inBounds (nodes_length_build data) hi), hclimb]
  rfl

/-- The path of a block has a hash for each level, and folding it gives the root exactly if
`verify_block` accepts the block under the root. -/
theorem authPath_folds (sha256 : Bytes → Hash256) (checks : Bool) (data : Bytes)
    (hlen : data.length ≤ isizeMax) :
    ∃ k, (build sha256 data).paddedLeafCount = 2 ^ k ∧ ∀ i < 2 ^ k,
      ∃ path, authPath checks (build sha256 data) i = .ok path ∧ path.length = k ∧
        ∀ b : Bytes,
          Heap.foldBits (hashPair sha256) i path (hashBlock sha256 b) =
              rootHash (build sha256 data) ↔
            tryVerifyBlock sha256 checks (build sha256 data) i b
              (rootHash (build sha256 data)) = .ok true := by
  have hcount : (build sha256 data).paddedLeafCount ≤ 2 ^ 52 := paddedLeafCount_le hlen
  have hpadded : (build sha256 data).paddedLeafCount = 2 ^ Nat.clog 2 (blockCount data) := rfl
  refine ⟨Nat.clog 2 (blockCount data), hpadded, ?_⟩
  intro i hi
  have hleaf : i < (build sha256 data).paddedLeafCount := hi
  have hroom : (build sha256 data).paddedLeafCount + i < 2 ^ 64 := by omega
  refine ⟨_, authPath_build hleaf hroom, ?_, ?_⟩
  · rw [List.length_map]
    exact Heap.length_siblings_leaf hi
  · intro b
    exact (tryVerifyBlock_build_iff hleaf hroom _).symm

theorem authPath_folds_twoBlocks :
    ∃ k, (build emptySha256 (List.replicate (2 * blockSize) 7)).paddedLeafCount = 2 ^ k ∧
      ∀ i < 2 ^ k, ∃ path,
        authPath true (build emptySha256 (List.replicate (2 * blockSize) 7)) i = .ok path ∧
          path.length = k ∧ ∀ b : Bytes,
            Heap.foldBits (hashPair emptySha256) i path (hashBlock emptySha256 b) =
                rootHash (build emptySha256 (List.replicate (2 * blockSize) 7)) ↔
              tryVerifyBlock emptySha256 true (build emptySha256 (List.replicate (2 * blockSize) 7))
                i b (rootHash (build emptySha256 (List.replicate (2 * blockSize) 7))) = .ok true :=
  authPath_folds emptySha256 true (List.replicate (2 * blockSize) 7) (by
    rw [List.length_replicate]
    decide)

end Rspacefs.MerkleTree
