import Mathlib.Data.Nat.Digits.Defs
import Rspacefs.Lib.Codec
import Rspacefs.Verity.Merkle

/-!
# A Merkle tree read from a file

`MerkleTree::to_bytes` and `from_bytes` of `rspacefs-verity/src/verity.rs`, and the walks
`verify_block` and `auth_path` over a tree that was read. The file gives the shape of the
tree: `from_bytes` compares its length with the node count and the node count with the
padded leaf count, in 64-bit arithmetic, and no more. An index below the padded leaf count
may then stand for any position in the tree, or lie outside the array.

## Main definitions

* `Panic`, `usize` — what ends the process, and 64-bit arithmetic with or without checks
* `MerkleTree.fromBytes`, `MerkleTree.toBytes` — the tree file
* `MerkleTree.tryVerifyBlock`, `MerkleTree.authPath` — the walks over any tree

## Main results

* `MerkleTree.tryVerifyBlock_eq` — over a tree of the right shape nothing panics
* `MerkleTree.tryVerifyBlock_root` — a block that the trusted root accepts under any tree
  is a block of the data, at the position that the index stands for
* `MerkleTree.trust_anchor_iff` — when the root alone makes every tree file safe
-/

namespace Rspacefs

open Lib

/-- What ends the process. -/
inductive Panic
  | overflow
  | capacityOverflow
  | indexOutOfBounds
  deriving DecidableEq, Repr

/-- `isize::MAX`: no slice and no allocation is longer. -/
def isizeMax : Nat := 2 ^ 63 - 1

/-- The result of an operation on `usize`: out of range it panics in a build with
overflow checks, and wraps around in one without. -/
def usize (checks : Bool) (exact : Int) : Except Panic Nat :=
  if 0 ≤ exact ∧ exact < 2 ^ 64 then .ok exact.toNat
  else if checks then .error .overflow
  else .ok (exact % 2 ^ 64).toNat

theorem usize_ok (checks : Bool) {exact : Int} {n : Nat} (hexact : exact = n) (h : n < 2 ^ 64) :
    usize checks exact = .ok n := by
  rw [usize, hexact, if_pos ⟨Int.natCast_nonneg n, by exact_mod_cast h⟩, Int.toNat_natCast]

/-- A result is the exact one up to wrapping around. -/
theorem usize_eq_ok {checks : Bool} {exact : Int} {n : Nat} (h : usize checks exact = .ok n) :
    n < 2 ^ 64 ∧ (n : Int) % 2 ^ 64 = exact % 2 ^ 64 := by
  unfold usize at h
  split at h
  · cases h
    omega
  · split at h
    · cases h
    · cases h
      omega

namespace MerkleTree

variable (sha256 : Bytes → Hash256) (checks : Bool)

/-! ### The file -/

/-- `u64::to_le_bytes`. -/
def u64Bytes (n : Nat) : Bytes := (List.range 8).map fun k => UInt8.ofNat (n / 256 ^ k)

/-- `u64::from_le_bytes`. -/
def u64Of (bytes : Bytes) : Nat := Nat.ofDigits 256 (bytes.map UInt8.toNat)

/-- Serialize the tree: leaf count, padded leaf count, node count, nodes. -/
def toBytes (t : MerkleTree) : Bytes :=
  u64Bytes t.leafCount ++ u64Bytes t.paddedLeafCount ++ u64Bytes t.nodes.length ++
    t.nodes.flatMap (·.val)

/-- `try_into` to a hash. -/
def toHash (bytes : Bytes) : Option Hash256 :=
  if h : bytes.length = hashSize then some ⟨bytes, h⟩ else none

/-- The `i`-th hash after the header. -/
def hashAt (data : Bytes) (i : Nat) : Option Hash256 :=
  toHash ((data.drop (24 + i * hashSize)).take hashSize)

/-- Deserialize a tree. -/
def fromBytes (data : Bytes) : Except Panic (Option MerkleTree) :=
  if data.length < 24 then .ok none
  else do
    let leafCount := u64Of (data.take 8)
    let paddedLeafCount := u64Of ((data.drop 8).take 8)
    let nodeCount := u64Of ((data.drop 16).take 8)
    let size ← usize checks (nodeCount * hashSize)
    let size ← usize checks (24 + size)
    if data.length ≠ size then .ok none
    else do
      let twice ← usize checks (2 * paddedLeafCount)
      let total ← usize checks (twice - 1)
      if nodeCount ≠ total then .ok none
      -- `Vec::with_capacity`
      else if isizeMax < nodeCount * hashSize then .error .capacityOverflow
      else .ok (((List.range nodeCount).mapM (hashAt data)).map fun nodes =>
        { nodes, leafCount, paddedLeafCount })

/-! ### The walks -/

/-- Indexing into the array. -/
def nodeAt (t : MerkleTree) (i : Nat) : Except Panic Hash256 :=
  match t.nodes[i]? with
  | some h => .ok h
  | none => .error .indexOutOfBounds

/-- The sibling of a node on the walk. -/
def siblingAt (t : MerkleTree) (idx : Nat) : Except Panic Hash256 :=
  if idx % 2 = 1 then do t.nodeAt (← usize checks (idx + 1)) else t.nodeAt (idx - 1)

/-- The index of the leaf of a block. -/
def leafNodeOf (t : MerkleTree) (blockIndex : Nat) : Except Panic Nat := do
  let leafStart ← usize checks (t.paddedLeafCount - 1)
  usize checks (leafStart + blockIndex)

/-- The loop of `verify_block`. -/
def walk (t : MerkleTree) (idx : Nat) (current : Hash256) : Except Panic Hash256 :=
  if idx = 0 then .ok current
  else do
    let sibling ← t.siblingAt checks idx
    let pair := Heap.pairWith idx current sibling
    walk t ((idx - 1) / 2) (hashPair sha256 pair.1 pair.2)
termination_by idx
decreasing_by omega

/-- `verify_block` on a tree of any shape, where it may panic. -/
def tryVerifyBlock (t : MerkleTree) (blockIndex : Nat) (blockData : Bytes)
    (expectedRoot : Hash256) : Except Panic Bool :=
  if t.paddedLeafCount ≤ blockIndex then .ok false
  else do
    let root ← t.walk sha256 checks (← t.leafNodeOf checks blockIndex)
      (hashBlock sha256 blockData)
    return decide (root = expectedRoot)

/-- The loop of `auth_path`. -/
def pathWalk (t : MerkleTree) (idx : Nat) : Except Panic (List Hash256) :=
  if idx = 0 then .ok []
  else do
    let sibling ← t.siblingAt checks idx
    let rest ← pathWalk t ((idx - 1) / 2)
    return sibling :: rest
termination_by idx
decreasing_by omega

/-- The authentication path of a block: the siblings from the leaf up. -/
def authPath (t : MerkleTree) (blockIndex : Nat) : Except Panic (List Hash256) :=
  if t.paddedLeafCount ≤ blockIndex then .ok []
  else do t.pathWalk checks (← t.leafNodeOf checks blockIndex)

/-! ### What the walks read -/

variable {sha256} {checks} {t : MerkleTree} {idx i : Nat} {current c : Hash256}

/-- The walk from `idx` stays inside the array. -/
def InBounds (t : MerkleTree) (idx : Nat) : Prop :=
  ∀ m ∈ Heap.siblings idx, m < t.nodes.length

theorem nodeAt_eq_ok_iff : t.nodeAt i = .ok c ↔ i < t.nodes.length ∧ t.node i = c := by
  unfold nodeAt node
  by_cases h : i < t.nodes.length
  · simp [h]
  · simp [h]

theorem siblingAt_eq (h : idx + 1 < 2 ^ 64) :
    t.siblingAt checks idx = t.nodeAt (Heap.siblingOf idx) := by
  unfold siblingAt Heap.siblingOf
  split
  · rw [usize_ok checks (n := idx + 1) (by omega) h]
    rfl
  · rfl

theorem walk_eq_ok_iff (h : idx + 1 < 2 ^ 64) :
    t.walk sha256 checks idx current = .ok c ↔
      t.InBounds idx ∧ Heap.climb (hashPair sha256) t.node idx current = c := by
  induction idx using Nat.strongRecOn generalizing current with
  | _ idx ih =>
    rw [walk]
    by_cases hidx : idx = 0
    · rw [if_pos hidx, hidx, Heap.climb_zero, InBounds, Heap.siblings_zero]
      simp
    · rw [if_neg hidx, siblingAt_eq h, Heap.climb_pos hidx, InBounds, Heap.siblings_pos hidx,
        List.forall_mem_cons, and_assoc]
      constructor
      · intro hwalk
        cases hsib : t.nodeAt (Heap.siblingOf idx) with
        | error e => rw [hsib] at hwalk; cases hwalk
        | ok sibling =>
          obtain ⟨hin, rfl⟩ := nodeAt_eq_ok_iff.mp hsib
          rw [hsib] at hwalk
          rw [← Heap.pairWith_siblingOf]
          exact ⟨hin, (ih _ (by omega) (by omega)).mp hwalk⟩
      · rintro ⟨hin, hup⟩
        rw [nodeAt_eq_ok_iff.mpr ⟨hin, rfl⟩]
        rw [← Heap.pairWith_siblingOf] at hup
        exact (ih _ (by omega) (by omega)).mpr hup

theorem pathWalk_eq_ok_iff {path : List Hash256} (h : idx + 1 < 2 ^ 64) :
    t.pathWalk checks idx = .ok path ↔
      t.InBounds idx ∧ (Heap.siblings idx).map t.node = path := by
  induction idx using Nat.strongRecOn generalizing path with
  | _ idx ih =>
    rw [pathWalk]
    by_cases hidx : idx = 0
    · rw [if_pos hidx, hidx, InBounds, Heap.siblings_zero]
      simp
    · rw [if_neg hidx, siblingAt_eq h, InBounds, Heap.siblings_pos hidx, List.forall_mem_cons,
        List.map_cons, and_assoc]
      constructor
      · intro hwalk
        cases hsib : t.nodeAt (Heap.siblingOf idx) with
        | error e => rw [hsib] at hwalk; cases hwalk
        | ok sibling =>
          obtain ⟨hin, rfl⟩ := nodeAt_eq_ok_iff.mp hsib
          rw [hsib] at hwalk
          cases hrest : t.pathWalk checks ((idx - 1) / 2) with
          | error e => rw [hrest] at hwalk; cases hwalk
          | ok rest =>
            rw [hrest] at hwalk
            cases hwalk
            obtain ⟨hup, rfl⟩ := (ih _ (by omega) (by omega)).mp hrest
            exact ⟨hin, hup, rfl⟩
      · rintro ⟨hin, hup, rfl⟩
        rw [nodeAt_eq_ok_iff.mpr ⟨hin, rfl⟩, (ih _ (by omega) (by omega)).mpr ⟨hup, rfl⟩]
        rfl

theorem leafNodeOf_eq (hi : i < t.paddedLeafCount) (h : t.paddedLeafCount + i < 2 ^ 64) :
    t.leafNodeOf checks i = .ok (t.leafNode i) := by
  unfold leafNodeOf leafNode
  rw [usize_ok checks (n := t.paddedLeafCount - 1) (by omega) (by omega)]
  rw [ok_bind, usize_ok checks (n := t.paddedLeafCount - 1 + i) (by omega) (by omega)]

/-- `verify_block` answers yes when the walk stays inside the array and ends in the root. -/
theorem tryVerifyBlock_eq_true_iff {b : Bytes} {root : Hash256}
    (h : t.paddedLeafCount + i < 2 ^ 64) :
    t.tryVerifyBlock sha256 checks i b root = .ok true ↔
      i < t.paddedLeafCount ∧ t.InBounds (t.leafNode i) ∧
        Heap.climb (hashPair sha256) t.node (t.leafNode i) (hashBlock sha256 b) = root := by
  unfold tryVerifyBlock
  by_cases hi : t.paddedLeafCount ≤ i
  · simp [hi]
  · have hlt : i < t.paddedLeafCount := by omega
    have hidx : t.leafNode i + 1 < 2 ^ 64 := by
      unfold leafNode
      omega
    rw [if_neg hi, leafNodeOf_eq hlt h, ← walk_eq_ok_iff hidx, and_iff_right hlt, ok_bind]
    cases t.walk sha256 checks (t.leafNode i) (hashBlock sha256 b) with
    | error e => exact ⟨nofun, nofun⟩
    | ok c => simp [bind, Except.bind, pure, Except.pure]

theorem authPath_eq_ok_iff {path : List Hash256} (hi : i < t.paddedLeafCount)
    (h : t.paddedLeafCount + i < 2 ^ 64) :
    t.authPath checks i = .ok path ↔
      t.InBounds (t.leafNode i) ∧ (Heap.siblings (t.leafNode i)).map t.node = path := by
  have hidx : t.leafNode i + 1 < 2 ^ 64 := by
    unfold leafNode
    omega
  rw [← pathWalk_eq_ok_iff hidx]
  unfold authPath
  rw [if_neg (Nat.not_le.mpr hi), leafNodeOf_eq hi h, ok_bind]

/-! ### Trees of the right shape -/

theorem inBounds_of_lt (hnodes : t.nodes.length + 1 = 2 * t.paddedLeafCount)
    (hidx : idx < t.nodes.length) : t.InBounds idx := by
  intro m hm
  have hlt := Heap.siblings_lt (k := t.paddedLeafCount - 1) (by omega) hm
  omega

theorem leafNode_inBounds (hnodes : t.nodes.length + 1 = 2 * t.paddedLeafCount)
    (hi : i < t.paddedLeafCount) : t.InBounds (t.leafNode i) :=
  inBounds_of_lt hnodes (by unfold leafNode; omega)

/-- Over a tree with as many nodes as its leaf count asks for, `verify_block` does not
panic. -/
theorem tryVerifyBlock_eq {b : Bytes} {root : Hash256}
    (hnodes : t.nodes.length + 1 = 2 * t.paddedLeafCount) (h : t.paddedLeafCount + i < 2 ^ 64) :
    t.tryVerifyBlock sha256 checks i b root = .ok (t.verifyBlock sha256 i b root) := by
  unfold tryVerifyBlock verifyBlock
  by_cases hi : t.paddedLeafCount ≤ i
  · rw [if_pos hi, if_pos hi]
  · have hlt : i < t.paddedLeafCount := Nat.not_le.mp hi
    have hidx : t.leafNode i + 1 < 2 ^ 64 := by
      unfold leafNode
      omega
    have hwalk : t.walk sha256 checks (t.leafNode i) (hashBlock sha256 b) = .ok _ :=
      (walk_eq_ok_iff hidx).mpr ⟨leafNode_inBounds hnodes hlt, rfl⟩
    rw [if_neg hi, if_neg hi, leafNodeOf_eq hlt h, ok_bind, hwalk, ok_bind]
    rfl

/-! ### Sizes -/

theorem u64Of_lt {bytes : Bytes} (h : bytes.length ≤ 8) : u64Of bytes < 2 ^ 64 := by
  have hlt : Nat.ofDigits 256 (bytes.map UInt8.toNat) < 256 ^ (bytes.map UInt8.toNat).length := by
    refine Nat.ofDigits_lt_base_pow_length (by decide) fun d hd => ?_
    obtain ⟨b, -, rfl⟩ := List.mem_map.mp hd
    exact b.toNat_lt
  rw [List.length_map] at hlt
  calc u64Of bytes < 256 ^ bytes.length := hlt
    _ ≤ 256 ^ 8 := Nat.pow_le_pow_right (by decide) h
    _ = 2 ^ 64 := by decide

/-- What the two size checks of `from_bytes` leave of the padded leaf count: in a build
without overflow checks twice its value may have wrapped around. -/
theorem fromBytes_shape {data : Bytes} (h : fromBytes checks data = .ok (some t)) :
    t.paddedLeafCount < 2 ^ 64 ∧ t.nodes.length ≤ 2 ^ 58 ∧
      (t.nodes.length + 1) % 2 ^ 64 = 2 * t.paddedLeafCount % 2 ^ 64 := by
  unfold fromBytes at h
  split at h
  · cases h
  obtain ⟨bytes, -, h⟩ := except_bind_eq_ok.mp h
  obtain ⟨size, -, h⟩ := except_bind_eq_ok.mp h
  split at h
  · cases h
  obtain ⟨twice, htwice, h⟩ := except_bind_eq_ok.mp h
  obtain ⟨total, htotal, h⟩ := except_bind_eq_ok.mp h
  split at h
  · cases h
  -- the count in the header is the padded count doubled less one, wrapped to 64 bits
  rename_i hcount
  split at h
  · cases h
  rename_i hcapacity
  obtain ⟨nodes, hnodes, rfl⟩ := Option.map_eq_some_iff.mp (Except.ok.inj h)
  have hlen := length_of_mapM hnodes
  rw [List.length_range] at hlen
  have hpadded : u64Of ((data.drop 8).take 8) < 2 ^ 64 := u64Of_lt (List.length_take_le _ _)
  obtain ⟨-, htwice⟩ := usize_eq_ok htwice
  obtain ⟨-, htotal⟩ := usize_eq_ok htotal
  unfold isizeMax hashSize at hcapacity
  dsimp only
  omega

/-- The data of a slice has few blocks. -/
theorem paddedLeafCount_le {data : Bytes} (hlen : data.length ≤ isizeMax) :
    (build sha256 data).paddedLeafCount ≤ 2 ^ 52 := by
  have hcount : blockCount data ≤ 2 ^ 52 := by
    unfold blockCount
    split
    · decide
    · unfold isizeMax at hlen
      unfold blockSize
      omega
  exact Nat.pow_le_pow_right (by decide) (Nat.clog_le_of_le_pow hcount)

theorem nodes_length_build (data : Bytes) :
    (build sha256 data).nodes.length + 1 = 2 * (build sha256 data).paddedLeafCount := by
  have hle := leafCount_le sha256 data
  have hpos := paddedLeafCount_pos sha256 data
  simp only [leafCount_build, paddedLeafCount_build] at hle hpos ⊢
  change (Heap.fill _ _ _ _).length + 1 = _
  rw [Heap.length_fill]
  simp only [List.length_append, List.length_replicate, List.length_map, List.length_range]
  omega

/-! ### Blocks under a foreign tree -/

theorem length_block_le (data : Bytes) (i : Nat) : (block data i).length ≤ blockSize :=
  List.length_take_le _ _

theorem length_zeroPad {b : Bytes} (h : b.length ≤ blockSize) : (zeroPad b).length = blockSize := by
  unfold zeroPad
  split
  · rw [List.length_append, List.length_replicate]
    omega
  · omega

/-- A pair of hashes is no block. -/
theorem pair_ne_zeroPad (x y : Hash256) {b : Bytes} (h : b.length ≤ blockSize) :
    x.val ++ y.val ≠ zeroPad b := by
  intro heq
  have hlen := congrArg List.length heq
  rw [List.length_append, x.2, y.2, length_zeroPad h] at hlen
  exact absurd hlen (by decide)

/-- A block that the root of the data accepts under any tree is a block of the data, and
the siblings on its walk are those of the tree of the data. -/
theorem climb_root {data b : Bytes} (hb : b.length ≤ blockSize)
    (hfree : CollisionFree sha256 (hashedByBuild sha256 data ++ hashedByVerify sha256 t i b))
    (hzero : ∀ x ∈ hashedByVerify sha256 t i b, sha256 x ≠ zeroHash)
    (hroot : Heap.climb (hashPair sha256) t.node (t.leafNode i) (hashBlock sha256 b) =
      rootHash (build sha256 data)) :
    ∃ j < (build sha256 data).leafCount, t.leafNode i = (build sha256 data).leafNode j ∧
      zeroPad b = zeroPad (block data j) ∧
      ∀ m ∈ Heap.siblings (t.leafNode i), t.node m = (build sha256 data).node m := by
  have hpos := paddedLeafCount_pos sha256 data
  -- what is hashed on either side
  have hblock : zeroPad b ∈ hashedByVerify sha256 t i b := List.mem_cons_self
  have hpair : ∀ x ∈ Heap.climbPairs (hashPair sha256) t.node (t.leafNode i) (hashBlock sha256 b),
      x.1.val ++ x.2.val ∈ hashedByVerify sha256 t i b := fun x hx =>
    List.mem_cons_of_mem _ (List.mem_map.mpr ⟨x, hx, rfl⟩)
  have hchildren : ∀ j < (build sha256 data).paddedLeafCount - 1,
      ((build sha256 data).node (2 * j + 1)).val ++ ((build sha256 data).node (2 * j + 2)).val ∈
        hashedByBuild sha256 data := fun j hj =>
    List.mem_append_right _ (List.mem_map.mpr ⟨j, List.mem_range.mpr hj, rfl⟩)
  have hdata : ∀ j < blockCount data, zeroPad (block data j) ∈ hashedByBuild sha256 data :=
    fun j hj => List.mem_append_left _ (List.mem_map.mpr ⟨j, List.mem_range.mpr hj, rfl⟩)
  -- a leaf of the tree, given by its node
  have hleaf : ∀ m, (build sha256 data).paddedLeafCount - 1 ≤ m →
      m < 2 * ((build sha256 data).paddedLeafCount - 1) + 1 →
      ∃ j, m = (build sha256 data).leafNode j ∧ (build sha256 data).node m =
        if j < blockCount data then hashBlock sha256 (block data j) else zeroHash := by
    intro m hle hlt
    refine ⟨m - ((build sha256 data).paddedLeafCount - 1), ?_, ?_⟩
    · unfold leafNode
      omega
    · rw [← node_leaf (by omega), leafNode, Nat.add_sub_cancel' hle]
  obtain ⟨hlt, hval, hsib⟩ | ⟨x, hx, m, hle, hlt, hval⟩ :=
    Heap.climb_eq_root (isHeap_build sha256 data) (fun x hx j hj h =>
      hashPair_inj hfree (List.mem_append_right _ (hpair x hx))
        (List.mem_append_left _ (hchildren j hj)) h) hroot
  · by_cases hinner : t.leafNode i < (build sha256 data).paddedLeafCount - 1
    · -- the hash of a block is not the hash of a pair
      rw [isHeap_build sha256 data _ hinner] at hval
      have heq := hfree _ (List.mem_append_right _ hblock) _
        (List.mem_append_left _ (hchildren _ hinner)) hval
      exact absurd heq.symm (pair_ne_zeroPad _ _ hb)
    · obtain ⟨j, hj, hnode⟩ := hleaf _ (Nat.not_lt.mp hinner) hlt
      rw [hnode] at hval
      split at hval
      · rename_i hcount
        refine ⟨j, hcount, hj, ?_, hsib⟩
        exact hfree _ (List.mem_append_right _ hblock) _ (List.mem_append_left _ (hdata j hcount))
          hval
      · exact absurd hval (hzero _ hblock)
  · -- the hash of a pair is not the hash of a block
    obtain ⟨j, -, hnode⟩ := hleaf m hle hlt
    rw [hnode] at hval
    split at hval
    · rename_i hcount
      have heq := hfree _ (List.mem_append_right _ (hpair x hx)) _
        (List.mem_append_left _ (hdata j hcount)) hval
      exact absurd heq (pair_ne_zeroPad _ _ (length_block_le data j))
    · exact absurd hval (hzero _ (hpair x hx))

/-! ### The trust anchor -/

/-- A tree in memory has the siblings of each of its leaves. -/
theorem authPath_build {data : Bytes} {j : Nat} (hj : j < (build sha256 data).paddedLeafCount)
    (h : (build sha256 data).paddedLeafCount + j < 2 ^ 64) :
    authPath checks (build sha256 data) j =
      .ok ((Heap.siblings ((build sha256 data).leafNode j)).map (build sha256 data).node) :=
  (authPath_eq_ok_iff hj h).mpr ⟨leafNode_inBounds (nodes_length_build data) hj, rfl⟩

/-- With the same siblings a block of the data is accepted at the position of another
tree. -/
theorem climb_block {data : Bytes} {j : Nat} (hj : j < (build sha256 data).leafCount)
    (hsame : ∀ m ∈ Heap.siblings ((build sha256 data).leafNode j),
      t.node m = (build sha256 data).node m) :
    Heap.climb (hashPair sha256) t.node ((build sha256 data).leafNode j)
      (hashBlock sha256 (block data j)) = rootHash (build sha256 data) := by
  have hlt := hj.trans_le (leafCount_le sha256 data)
  have hnode := node_leaf hlt
  rw [if_pos (show j < blockCount data from hj)] at hnode
  rw [Heap.climb_congr hsame, ← hnode]
  exact Heap.climb_node (isHeap_build sha256 data) (by unfold leafNode; omega)

/-- Under the root of the data, a tree read from a file accepts `b` at an index of the data only
if `b` is the block there, exactly if: where the index stands for the position of another block in
the tree of the data, and the file has the siblings of that block, `b` is not that block unless the
two are equal. -/
theorem trust_anchor_iff (sha256 : Bytes → Hash256) (checks : Bool) (data tb : Bytes)
    (t : MerkleTree) (hlen : data.length ≤ isizeMax) (hread : fromBytes checks tb = .ok (some t))
    (i : Nat) (hi : i < (build sha256 data).leafCount) (b : Bytes) (hb : b.length ≤ blockSize)
    (hfree : CollisionFree sha256 (hashedByBuild sha256 data ++ hashedByVerify sha256 t i b))
    (hzero : ∀ x ∈ hashedByVerify sha256 t i b, sha256 x ≠ zeroHash) :
    (tryVerifyBlock sha256 checks t i b (rootHash (build sha256 data)) = .ok true →
      zeroPad b = zeroPad (block data i)) ↔
    ∀ j < (build sha256 data).leafCount, i < t.paddedLeafCount →
      t.paddedLeafCount + i = (build sha256 data).paddedLeafCount + j →
      authPath checks t i = authPath checks (build sha256 data) j →
      zeroPad b = zeroPad (block data j) → zeroPad (block data j) = zeroPad (block data i) := by
  have hpadded : (build sha256 data).paddedLeafCount ≤ 2 ^ 52 := paddedLeafCount_le hlen
  have hcount := leafCount_le sha256 data
  have hshape := fromBytes_shape hread
  constructor
  · intro hsafe j hj hit hpos hpath hblock
    have hjlt := hj.trans_le hcount
    have hnode : t.leafNode i = (build sha256 data).leafNode j := by
      unfold leafNode
      omega
    have hbuilt : authPath checks (build sha256 data) j =
        .ok ((Heap.siblings ((build sha256 data).leafNode j)).map (build sha256 data).node) :=
      authPath_build hjlt (by omega)
    rw [hbuilt, authPath_eq_ok_iff hit (by omega), hnode, List.map_inj_left] at hpath
    have hhash : hashBlock sha256 b = hashBlock sha256 (block data j) := congrArg sha256 hblock
    rw [← hblock]
    -- the `j`-th block with the siblings it has in the tree is accepted at `i`
    refine hsafe ((tryVerifyBlock_eq_true_iff (by omega)).mpr ⟨hit, hnode ▸ hpath.1, ?_⟩)
    rw [hnode, hhash]
    exact climb_block hj hpath.2
  · intro hanchor hverify
    obtain ⟨hit, hin, hroot⟩ := (tryVerifyBlock_eq_true_iff (by omega)).mp hverify
    -- a climb that ends at the root went through nodes of the tree
    obtain ⟨j, hj, hnode, heq, hsame⟩ := climb_root hb hfree hzero hroot
    have hjlt := hj.trans_le hcount
    rw [heq]
    refine hanchor j hj hit ?_ ?_ heq
    · unfold leafNode at hnode
      omega
    · rw [authPath_build hjlt (by omega), authPath_eq_ok_iff hit (by omega)]
      exact ⟨hin, by rw [hnode] at hsame ⊢; exact List.map_inj_left.mpr hsame⟩

/-- SHA-256 on the one input of a tree over nothing: a block of zeros. -/
def emptySha256 (x : Bytes) : Hash256 :=
  if x = List.replicate blockSize 0 then zeroBlockDigest else zeroPairDigest

/-- A block of zeros and a shorter one. -/
def shortSecond : Bytes := List.replicate blockSize 0 ++ [1]

/-- The SHA-256 digest of the second block, padded. -/
def secondDigest : Hash256 :=
  ⟨[240, 197, 0, 226, 64, 30, 26, 238, 51, 209, 26, 226, 90, 225, 78, 87, 72, 32, 251, 219, 23,
    49, 103, 10, 241, 136, 143, 136, 243, 193, 119, 148], rfl⟩

/-- The SHA-256 digest of `zeroBlockDigest` and `secondDigest`. -/
def shortSecondDigest : Hash256 :=
  ⟨[210, 172, 41, 201, 125, 54, 133, 13, 177, 9, 219, 35, 11, 158, 218, 151, 131, 0, 174, 123,
    100, 1, 147, 153, 143, 249, 53, 252, 238, 249, 22, 27], rfl⟩

/-- SHA-256 on the three inputs of a tree over `shortSecond`. -/
def shortSecondSha256 (x : Bytes) : Hash256 :=
  if x.length = hashSize + hashSize then shortSecondDigest
  else if x.head? = some 1 then secondDigest else zeroBlockDigest

/-- The tree over `shortSecond`, with a padded leaf count of three and two more nodes. -/
def shiftedTree : MerkleTree :=
  ⟨[shortSecondDigest, zeroBlockDigest, secondDigest, zeroHash, zeroHash], 2, 3⟩

theorem length_shortSecond : shortSecond.length = blockSize + 1 := by
  rw [shortSecond, List.length_append, List.length_replicate, List.length_singleton]

theorem block_shortSecond : block shortSecond 1 = [1] := by
  rw [block, shortSecond, Nat.one_mul, List.drop_left' List.length_replicate]
  rfl

theorem build_shortSecond : build shortSecondSha256 shortSecond =
    ⟨[shortSecondDigest, zeroBlockDigest, secondDigest], 2, 2⟩ := by
  decide +kernel

theorem leafCount_shortSecond : (build shortSecondSha256 shortSecond).leafCount = 2 := by
  rw [build_shortSecond]

theorem fromBytes_shiftedTree : fromBytes false (toBytes shiftedTree) = .ok (some shiftedTree) := by
  decide +kernel

/-- What is hashed when the second block is checked as the first. -/
theorem hashedByVerify_shiftedTree : hashedByVerify shortSecondSha256 shiftedTree 0 [1] =
    [zeroPad [1], zeroBlockDigest.val ++ secondDigest.val] := by
  have hleaf : hashBlock shortSecondSha256 [1] = secondDigest := by decide +kernel
  change zeroPad [1] :: (Heap.climbPairs _ _ 2 _).map _ = _
  rw [hleaf, Heap.climbPairs_pos (by decide), Heap.climbPairs_zero]
  rfl

theorem digests_shortSecond : [zeroPad (block shortSecond 0), zeroPad [1],
    zeroBlockDigest.val ++ secondDigest.val].map shortSecondSha256 =
      [zeroBlockDigest, secondDigest, shortSecondDigest] := by
  decide +kernel

theorem collisionFree_shiftedTree :
    CollisionFree shortSecondSha256 (hashedByBuild shortSecondSha256 shortSecond ++
      hashedByVerify shortSecondSha256 shiftedTree 0 [1]) := by
  have hbuild : hashedByBuild shortSecondSha256 shortSecond =
      [zeroPad (block shortSecond 0), zeroPad [1], zeroBlockDigest.val ++ secondDigest.val] := by
    simp only [hashedByBuild, build_shortSecond, node, ← block_shortSecond]
    rfl
  refine CollisionFree.of_nodup (by rw [digests_shortSecond]; decide) fun x hx => ?_
  rcases List.mem_append.mp hx with hx | hx
  · rwa [hbuild] at hx
  · rw [hashedByVerify_shiftedTree] at hx
    exact List.mem_cons_of_mem _ hx

theorem zeroPad_ne_shortSecond : zeroPad [1] ≠ zeroPad (block shortSecond 0) := by
  decide +kernel

/-- At the index that stands for the position of the second block, the condition fails for the
second block, and so does the claim. -/
theorem trust_anchor_iff_shifted :
    ¬ (tryVerifyBlock shortSecondSha256 false shiftedTree 0 [1]
        (rootHash (build shortSecondSha256 shortSecond)) = .ok true →
      zeroPad [1] = zeroPad (block shortSecond 0)) := by
  have hzero : ∀ x ∈ hashedByVerify shortSecondSha256 shiftedTree 0 [1],
      shortSecondSha256 x ≠ zeroHash := by
    intro x _
    unfold shortSecondSha256
    split_ifs <;> decide
  have hpath : authPath false shiftedTree 0 =
      authPath false (build shortSecondSha256 shortSecond) 1 := by
    rw [build_shortSecond]
    decide +kernel
  have hlen : shortSecond.length ≤ isizeMax := by
    rw [length_shortSecond]
    decide
  rw [trust_anchor_iff shortSecondSha256 false shortSecond _ shiftedTree hlen fromBytes_shiftedTree 0
    (by rw [leafCount_shortSecond]; decide) [1] (by decide) collisionFree_shiftedTree hzero]
  intro hanchor
  refine zeroPad_ne_shortSecond ?_
  rw [← hanchor 1 (by rw [leafCount_shortSecond]; decide) (by decide)
    (by rw [build_shortSecond]; rfl) hpath (by rw [block_shortSecond]), block_shortSecond]

/-- Under a shifted tree the second block is accepted as the first. -/
theorem not_trust_anchor_shifted :
    fromBytes false (toBytes shiftedTree) = .ok (some shiftedTree) ∧
    rootHash shiftedTree = rootHash (build shortSecondSha256 shortSecond) ∧
    0 < (build shortSecondSha256 shortSecond).leafCount ∧
    CollisionFree shortSecondSha256 (hashedByBuild shortSecondSha256 shortSecond ++
      hashedByVerify shortSecondSha256 shiftedTree 0 [1]) ∧
    tryVerifyBlock shortSecondSha256 false shiftedTree 0 [1]
      (rootHash (build shortSecondSha256 shortSecond)) = .ok true ∧
    zeroPad [1] ≠ zeroPad (block shortSecond 0) := by
  rw [build_shortSecond]
  refine ⟨fromBytes_shiftedTree, rfl, by decide, ?_, by decide +kernel, zeroPad_ne_shortSecond⟩
  exact collisionFree_shiftedTree

end MerkleTree

end Rspacefs
