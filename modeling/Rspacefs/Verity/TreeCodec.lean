import Rspacefs.Lib.Codec
import Rspacefs.Verity.TreeFile

/-!
# Writing a tree and reading it back

`MerkleTree::to_bytes` and `from_bytes` of `rspacefs-verity/src/verity.rs` undo each other:
a tree that was built is read back from its file, and a file that is accepted is what its
tree is written as. The header has three numbers of eight bytes, and the nodes follow in
pieces of the size of a hash.

## Main results

* `u64Of_u64Bytes`, `u64Bytes_u64Of` — the numbers of the header
* `fromBytes_toBytes` — reading back a tree of the right shape
* `toBytes_fromBytes` — writing back a tree that was read
* `tree_round_trip` — both, for the trees of data
-/

namespace Rspacefs

open Lib

namespace MerkleTree

variable {sha256 : Bytes → Hash256} {checks : Bool} {t : MerkleTree} {data : Bytes} {n : Nat}

/-! ### The numbers of the header -/

@[simp] theorem length_u64Bytes (n : Nat) : (u64Bytes n).length = 8 := by
  simp [u64Bytes]

theorem map_toNat_u64Bytes (n : Nat) : (u64Bytes n).map UInt8.toNat = digitsOf 256 8 n := by
  rw [u64Bytes, digitsOf, List.map_map]
  exact List.map_congr_left fun k _ => UInt8.toNat_ofNat'

theorem u64Of_u64Bytes (h : n < 2 ^ 64) : u64Of (u64Bytes n) = n := by
  rw [u64Of, map_toNat_u64Bytes, ofDigits_digitsOf]
  exact Nat.mod_eq_of_lt h

theorem u64Bytes_u64Of {bytes : Bytes} (h : bytes.length = 8) : u64Bytes (u64Of bytes) = bytes := by
  have hdigits : ∀ d ∈ bytes.map UInt8.toNat, d < 256 := by
    intro d hd
    obtain ⟨b, -, rfl⟩ := List.mem_map.mp hd
    exact b.toNat_lt
  have hback := digitsOf_ofDigits (by decide) hdigits
  rw [List.length_map, h] at hback
  refine List.map_injective_iff.mpr (fun a b => UInt8.toNat_inj.mp) ?_
  rw [map_toNat_u64Bytes]
  exact hback

/-! ### The header and the nodes of a file -/

/-- A file is as long as its header and its nodes. -/
theorem length_flatMap_nodes (nodes : List Hash256) :
    (nodes.flatMap (·.val)).length = nodes.length * hashSize := by
  rw [List.length_flatMap, List.map_congr_left fun h _ => h.2, List.map_const',
    List.sum_replicate_nat]

theorem length_toBytes (t : MerkleTree) :
    (toBytes t).length = 24 + t.nodes.length * hashSize := by
  simp only [toBytes, List.length_append, length_u64Bytes, length_flatMap_nodes]

/-- What stands where in a file. -/
structure Header (file : Bytes) (leafCount paddedLeafCount nodeCount : Nat) (rest : Bytes) : Prop where
  leaf : file.take 8 = u64Bytes leafCount
  padded : (file.drop 8).take 8 = u64Bytes paddedLeafCount
  count : (file.drop 16).take 8 = u64Bytes nodeCount
  nodes : file.drop 24 = rest

theorem header_toBytes (t : MerkleTree) :
    Header (toBytes t) t.leafCount t.paddedLeafCount t.nodes.length (t.nodes.flatMap (·.val)) := by
  have hshape : toBytes t = u64Bytes t.leafCount ++ (u64Bytes t.paddedLeafCount ++
      (u64Bytes t.nodes.length ++ t.nodes.flatMap (·.val))) := by
    simp only [toBytes, List.append_assoc]
  have hdrop : ∀ (n : Nat) (tail : Bytes), (u64Bytes n ++ tail).drop 8 = tail :=
    fun n tail => List.drop_left' (length_u64Bytes n)
  have htake : ∀ (n : Nat) (tail : Bytes), (u64Bytes n ++ tail).take 8 = u64Bytes n :=
    fun n tail => List.take_left' (length_u64Bytes n)
  have h16 : ∀ l : Bytes, l.drop 16 = (l.drop 8).drop 8 := fun l => by rw [List.drop_drop]
  have h24 : ∀ l : Bytes, l.drop 24 = ((l.drop 8).drop 8).drop 8 := fun l => by
    rw [List.drop_drop, List.drop_drop]
  rw [hshape]
  refine ⟨htake _ _, ?_, ?_, ?_⟩
  · rw [hdrop, htake]
  · rw [h16, hdrop, hdrop, htake]
  · rw [h24, hdrop, hdrop, hdrop]

/-- Cutting the file into the pieces of a header puts it together again. -/
theorem append_header {file : Bytes} : file.take 8 ++ (file.drop 8).take 8 ++
    (file.drop 16).take 8 ++ file.drop 24 = file := by
  have hjoin : ∀ k, file.take k ++ (file.drop k).take 8 = file.take (k + 8) := fun k => by
    rw [List.take_add]
  rw [hjoin 8, hjoin 16, List.take_append_drop]

theorem hashAt_eq (file : Bytes) (i : Nat) :
    hashAt file i = toHash (piece hashSize (file.drop 24) i) := by
  rw [hashAt, piece, List.drop_drop]

theorem toHash_eq_some_iff {bytes : Bytes} {h : Hash256} : toHash bytes = some h ↔ bytes = h.val := by
  unfold toHash
  split
  · rename_i hlen
    rw [Option.some.injEq]
    exact ⟨fun heq => congrArg Subtype.val heq, fun heq => Subtype.ext heq⟩
  · rename_i hlen
    refine ⟨nofun, fun heq => absurd ?_ hlen⟩
    rw [heq, h.2]

theorem hashAt_eq_some_iff {file : Bytes} {i : Nat} {h : Hash256} :
    hashAt file i = some h ↔ piece hashSize (file.drop 24) i = h.val := by
  rw [hashAt_eq, toHash_eq_some_iff]

/-! ### Reading and writing -/

/-- A tree of the right shape, of a size that fits into memory, is read back. -/
theorem fromBytes_toBytes (hleaf : t.leafCount < 2 ^ 64) (hpadded : t.paddedLeafCount < 2 ^ 63)
    (hnodes : t.nodes.length + 1 = 2 * t.paddedLeafCount)
    (hsize : t.nodes.length * hashSize ≤ isizeMax) :
    fromBytes checks (toBytes t) = .ok (some t) := by
  have hheader := header_toBytes t
  have hlen := length_toBytes t
  have hhash : hashSize = 32 := rfl
  have hmax : isizeMax = 2 ^ 63 - 1 := rfl
  have hcount : u64Of (u64Bytes t.nodes.length) = t.nodes.length := u64Of_u64Bytes (by omega)
  have hread : (List.range t.nodes.length).mapM (hashAt (toBytes t)) = some t.nodes := by
    refine (mapM_eq_some_iff fun _ _ => hashAt_eq_some_iff).mpr ?_
    rw [hheader.nodes]
    refine List.ext_getElem (by simp) fun i hi hi' => ?_
    rw [List.getElem_map, List.getElem_map, List.getElem_range]
    exact piece_flatMap (fun h => h.2) (by simpa using hi')
  unfold fromBytes
  rw [if_neg (by omega)]
  simp only [hheader.leaf, hheader.padded, hheader.count, u64Of_u64Bytes hleaf,
    u64Of_u64Bytes (show t.paddedLeafCount < 2 ^ 64 by omega), hcount]
  rw [usize_ok checks (n := t.nodes.length * hashSize) (by push_cast; rfl) (by omega), ok_bind,
    usize_ok checks (n := 24 + t.nodes.length * hashSize) (by push_cast; rfl) (by omega), ok_bind,
    if_neg (by simpa using hlen),
    usize_ok checks (n := 2 * t.paddedLeafCount) (by push_cast; rfl) (by omega), ok_bind,
    usize_ok checks (n := t.nodes.length) (by omega) (by omega), ok_bind,
    if_neg (by simp), if_neg (by omega), hread]
  rfl

/-- A file that is accepted is what its tree is written as. -/
theorem toBytes_fromBytes {file : Bytes} (h : fromBytes checks file = .ok (some t)) :
    toBytes t = file := by
  unfold fromBytes at h
  split at h
  · cases h
  rename_i hlong
  obtain ⟨bytes, hbytes, h⟩ := except_bind_eq_ok.mp h
  obtain ⟨size, hsize, h⟩ := except_bind_eq_ok.mp h
  split at h
  · cases h
  rename_i hlen
  obtain ⟨twice, -, h⟩ := except_bind_eq_ok.mp h
  obtain ⟨total, -, h⟩ := except_bind_eq_ok.mp h
  split at h
  · cases h
  split at h
  · cases h
  rename_i hcapacity
  obtain ⟨nodes, hnodes, rfl⟩ := Option.map_eq_some_iff.mp (Except.ok.inj h)
  have hcount := length_of_mapM hnodes
  rw [List.length_range] at hcount
  -- nothing wraps around in a file that fits into memory
  have hexact : file.length = 24 + nodes.length * hashSize := by
    obtain ⟨hbytes, hbytes'⟩ := usize_eq_ok hbytes
    obtain ⟨hsize, hsize'⟩ := usize_eq_ok hsize
    unfold isizeMax hashSize at *
    omega
  have hnodes' : nodes.flatMap (·.val) = file.drop 24 := by
    have hpieces := (mapM_eq_some_iff fun _ _ => hashAt_eq_some_iff).mp hnodes
    rw [List.flatMap_def, ← hpieces, ← List.flatMap_def, ← hcount]
    exact flatMap_piece (by rw [List.length_drop, hexact, Nat.add_sub_cancel_left])
  have htake : ∀ k, k ≤ 16 → ((file.drop k).take 8).length = 8 := fun k hk => by
    rw [List.length_take, List.length_drop]
    omega
  have hfirst : (file.take 8).length = 8 := htake 0 (by omega)
  change u64Bytes (u64Of (file.take 8)) ++ u64Bytes (u64Of ((file.drop 8).take 8)) ++
    u64Bytes nodes.length ++ nodes.flatMap (·.val) = file
  rw [hcount, u64Bytes_u64Of hfirst, u64Bytes_u64Of (htake 8 (by omega)),
    u64Bytes_u64Of (htake 16 (by omega)), hnodes', append_header]

/-- Writing a tree and reading it back, both ways. -/
theorem tree_round_trip (sha256 : Bytes → Hash256) (checks : Bool) :
    (∀ data : Bytes, data.length < 2 ^ 63 →
      fromBytes checks (toBytes (build sha256 data)) = .ok (some (build sha256 data))) ∧
    ∀ (file : Bytes) (t : MerkleTree), file.length < 2 ^ 63 →
      fromBytes checks file = .ok (some t) → toBytes t = file := by
  refine ⟨fun data hdata => ?_, fun file t _ h => toBytes_fromBytes h⟩
  have hpadded : (build sha256 data).paddedLeafCount ≤ 2 ^ 52 := by
    refine paddedLeafCount_le ?_
    unfold isizeMax
    omega
  have hleaf := leafCount_le sha256 data
  have hnodes : (build sha256 data).nodes.length + 1 = 2 * (build sha256 data).paddedLeafCount :=
    nodes_length_build data
  refine fromBytes_toBytes (by omega) (by omega) hnodes ?_
  unfold isizeMax hashSize
  omega

/-- The tree of two blocks, and a file whose header was made up. -/
theorem tree_round_trip_shortSecond :
    fromBytes false (toBytes (build shortSecondSha256 shortSecond)) =
        .ok (some (build shortSecondSha256 shortSecond)) ∧
      ∀ t, fromBytes false (toBytes shiftedTree) = .ok (some t) →
        toBytes t = toBytes shiftedTree := by
  constructor
  · apply (tree_round_trip shortSecondSha256 false).1
    rw [length_shortSecond]
    decide
  · exact fun t => (tree_round_trip shortSecondSha256 false).2 _ t (by decide +kernel)

end MerkleTree

end Rspacefs
