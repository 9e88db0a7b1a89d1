import Rspacefs.Verity.TreeCodec

/-!
# A tree file from an untrusted source

`MerkleTree::from_bytes` of `rspacefs-verity/src/verity.rs` reads three 64-bit counts from the
file and computes two sizes from them before it compares anything. What it accepts is walked
by `root_hash`, `verify_block` and `auth_path` without another look at the counts.

## Main definitions

* `MerkleTree.tryRootHash` — the root of a tree of any shape
* `MerkleTree.WalksSafely`, `MerkleTree.ReadsSafely` — nothing panics, for any index
* `MerkleTree.HeaderFits` — what the counts in the header have to satisfy for that

## Main results

* `MerkleTree.walksSafely_iff` — an accepted tree is safe when its padded leaf count has not
  wrapped around
* `MerkleTree.readsSafely_iff` — the files that are safe to read and to walk
-/

namespace Rspacefs

open Lib

/-- An operation succeeds when it is in range or wraps around, and gives the result modulo
the word size. -/
theorem usize_eq_ok_iff {checks : Bool} {exact : Int} {n : Nat} :
    usize checks exact = .ok n ↔
      (checks = true → 0 ≤ exact ∧ exact < 2 ^ 64) ∧ (n : Int) = exact % 2 ^ 64 := by
  unfold usize
  split
  · rename_i hin
    rw [Except.ok.injEq, and_iff_right fun _ => hin]
    omega
  · rename_i hout
    cases checks with
    | true => exact iff_of_false (by simp) fun h => hout (h.1 rfl)
    | false =>
      rw [if_neg Bool.false_ne_true, Except.ok.injEq]
      simp only [Bool.false_eq_true, false_implies, true_and]
      omega

namespace MerkleTree

/-- `root_hash` on a tree of any shape, where it may panic. -/
def tryRootHash (t : MerkleTree) : Except Panic Hash256 := t.nodeAt 0

/-- No walk over the tree panics. -/
structure WalksSafely (sha256 : Bytes → Hash256) (checks : Bool) (t : MerkleTree) : Prop where
  root : ∃ h, t.tryRootHash = .ok h
  verify : ∀ i b root, ∃ accepted, t.tryVerifyBlock sha256 checks i b root = .ok accepted
  path : ∀ i, ∃ siblings, t.authPath checks i = .ok siblings

/-- The file is read without a panic, the nodes take no more room than the file, and no
walk over what was read panics. -/
def ReadsSafely (sha256 : Bytes → Hash256) (checks : Bool) (file : Bytes) : Prop :=
  ∃ read, fromBytes checks file = .ok read ∧
    ∀ t, read = some t → t.nodes.length * hashSize ≤ file.length ∧ t.WalksSafely sha256 checks

/-! ### The header -/

/-- The padded leaf count in the header. -/
def paddedOf (file : Bytes) : Nat := u64Of ((file.drop 8).take 8)

/-- The node count in the header. -/
def countOf (file : Bytes) : Nat := u64Of ((file.drop 16).take 8)

/-- The length is the one that the node count asks for, in 64-bit arithmetic. -/
def Sized (file : Bytes) : Prop := (file.length : Int) = (24 + countOf file * hashSize) % 2 ^ 64

/-- The node count is the one that the padded leaf count asks for, in 64-bit arithmetic. -/
def Counted (file : Bytes) : Prop := (countOf file : Int) = (2 * paddedOf file - 1) % 2 ^ 64

/-- The counts do not overflow where overflow is checked, and have not wrapped around in a
file that passes both comparisons. -/
def HeaderFits (checks : Bool) (file : Bytes) : Prop :=
  24 ≤ file.length →
    (checks = true → countOf file * hashSize < 2 ^ 64) ∧
    (Sized file →
      (checks = true → 0 < paddedOf file ∧ paddedOf file < 2 ^ 63) ∧
      (Counted file → countOf file * hashSize ≤ isizeMax ∧ paddedOf file < 2 ^ 63))

/-! ### Reading -/

variable {sha256 : Bytes → Hash256} {checks : Bool} {file : Bytes} {t : MerkleTree}

theorem paddedOf_lt (file : Bytes) : paddedOf file < 2 ^ 64 := u64Of_lt (List.length_take_le _ _)

/-- The size computed from the node count. -/
theorem size_eq_ok_iff {size : Nat} :
    (usize checks (countOf file * hashSize) >>= fun bytes => usize checks (24 + bytes)) = .ok size ↔
      (checks = true → countOf file * hashSize < 2 ^ 64) ∧
        (size : Int) = (24 + countOf file * hashSize) % 2 ^ 64 := by
  rw [except_bind_eq_ok]
  simp only [usize_eq_ok_iff]
  unfold hashSize
  constructor
  · rintro ⟨bytes, ⟨hfits, hbytes⟩, -, hsize⟩
    refine ⟨fun h => ?_, ?_⟩
    · have := (hfits h).2
      omega
    · omega
  · rintro ⟨hfits, hsize⟩
    refine ⟨(countOf file * 32) % 2 ^ 64, ⟨fun h => ?_, by omega⟩, fun h => ?_, by omega⟩
    · have := hfits h
      omega
    · have := hfits h
      omega

/-- The total computed from the padded leaf count. -/
theorem total_eq_ok_iff {total : Nat} :
    (usize checks (2 * paddedOf file) >>= fun twice => usize checks (twice - 1)) = .ok total ↔
      (checks = true → 0 < paddedOf file ∧ paddedOf file < 2 ^ 63) ∧
        (total : Int) = (2 * paddedOf file - 1) % 2 ^ 64 := by
  rw [except_bind_eq_ok]
  simp only [usize_eq_ok_iff]
  constructor
  · rintro ⟨twice, ⟨hfits, htwice⟩, hpos, htotal⟩
    refine ⟨fun h => ?_, ?_⟩
    · have := hfits h
      have := hpos h
      omega
    · omega
  · rintro ⟨hfits, htotal⟩
    refine ⟨(2 * paddedOf file) % 2 ^ 64, ⟨fun h => ?_, by omega⟩, fun h => ?_, by omega⟩
    · have := hfits h
      omega
    · have := hfits h
      omega

/-- The tree in a file that passes the comparisons, if it has all its nodes. -/
def treeOf (file : Bytes) : Option MerkleTree :=
  ((List.range (countOf file)).mapM (hashAt file)).map fun nodes =>
    ⟨nodes, u64Of (file.take 8), paddedOf file⟩

/-- What `from_bytes` answers, if it does. -/
theorem fromBytes_eq_ok_iff (hlen : 24 ≤ file.length) {read : Option MerkleTree} :
    fromBytes checks file = .ok read ↔
      (checks = true → countOf file * hashSize < 2 ^ 64) ∧
        (¬ Sized file ∧ read = none ∨ Sized file ∧
          (checks = true → 0 < paddedOf file ∧ paddedOf file < 2 ^ 63) ∧
          (¬ Counted file ∧ read = none ∨
            Counted file ∧ countOf file * hashSize ≤ isizeMax ∧ read = treeOf file)) := by
  have hread : fromBytes checks file =
      (usize checks (countOf file * hashSize) >>= fun bytes => usize checks (24 + bytes)) >>=
        fun size => if file.length ≠ size then .ok none else
          (usize checks (2 * paddedOf file) >>= fun twice => usize checks (twice - 1)) >>=
            fun total => if countOf file ≠ total then .ok none
              else if isizeMax < countOf file * hashSize then .error .capacityOverflow
              else .ok (treeOf file) := by
    rw [fromBytes, if_neg (Nat.not_lt.mpr hlen)]
    simp only [bind_assoc]
    rfl
  rw [hread, except_bind_eq_ok]
  simp only [size_eq_ok_iff]
  constructor
  · rintro ⟨size, ⟨hfits, hsize⟩, h⟩
    refine ⟨hfits, ?_⟩
    split at h
    · rename_i hne
      exact Or.inl ⟨fun hsized => hne (by unfold Sized at hsized; omega), (Except.ok.inj h).symm⟩
    · rename_i heq
      obtain ⟨total, htotal, h⟩ := except_bind_eq_ok.mp h
      obtain ⟨hpadded, htotal⟩ := total_eq_ok_iff.mp htotal
      refine Or.inr ⟨by unfold Sized; omega, hpadded, ?_⟩
      split at h
      · rename_i hne
        exact Or.inl ⟨fun hcounted => hne (by unfold Counted at hcounted; omega),
          (Except.ok.inj h).symm⟩
      · rename_i heq
        split at h
        · cases h
        · rename_i hroom
          exact Or.inr ⟨by unfold Counted; omega, Nat.not_lt.mp hroom, (Except.ok.inj h).symm⟩
  · rintro ⟨hfits, h⟩
    -- without checks the size and the node count wrap around
    refine ⟨((24 + countOf file * hashSize) % 2 ^ 64 : Nat), ⟨hfits, by omega⟩, ?_⟩
    unfold Sized Counted at h
    obtain ⟨hne, rfl⟩ | ⟨hsized, hpadded, h⟩ := h
    · rw [if_pos (by omega)]
    · rw [if_neg (by omega), except_bind_eq_ok]
      simp only [total_eq_ok_iff]
      refine ⟨((2 * paddedOf file - 1 : Int) % 2 ^ 64).toNat, ⟨hpadded, by omega⟩, ?_⟩
      obtain ⟨hne, rfl⟩ | ⟨hcounted, hroom, rfl⟩ := h
      · rw [if_pos (by omega)]
      · rw [if_neg (by omega), if_neg (Nat.not_lt.mpr hroom)]

/-- A file of the length that its node count asks for has all its nodes. -/
theorem treeOf_isSome (hsized : Sized file) (hroom : countOf file * hashSize ≤ isizeMax) :
    ∃ t, treeOf file = some t := by
  have hhash : ∀ i ∈ List.range (countOf file), ∃ h, hashAt file i = some h := by
    intro i hi
    have hi := List.mem_range.mp hi
    unfold hashAt toHash
    rw [dif_pos]
    · exact ⟨_, rfl⟩
    · rw [List.length_take, List.length_drop]
      unfold Sized hashSize isizeMax at *
      omega
  have hnodes : ∃ nodes, (List.range (countOf file)).mapM (hashAt file) = some nodes := by
    generalize List.range (countOf file) = is at hhash
    induction is with
    | nil => exact ⟨[], rfl⟩
    | cons i is ih =>
      obtain ⟨h, hh⟩ := hhash i List.mem_cons_self
      obtain ⟨hs, hhs⟩ := ih fun j hj => hhash j (List.mem_cons_of_mem _ hj)
      exact ⟨h :: hs, by rw [List.mapM_cons, hh, hhs]; rfl⟩
  obtain ⟨nodes, hnodes⟩ := hnodes
  exact ⟨_, by rw [treeOf, hnodes]; rfl⟩

/-- An accepted tree has the counts of the header. -/
theorem treeOf_counts (h : treeOf file = some t) :
    t.nodes.length = countOf file ∧ t.paddedLeafCount = paddedOf file := by
  obtain ⟨nodes, hnodes, rfl⟩ := Option.map_eq_some_iff.mp h
  have hlen := length_of_mapM hnodes
  rw [List.length_range] at hlen
  exact ⟨hlen, rfl⟩

/-! ### Walking -/

/-- A tree with the counts of an accepted file is safe when the padded leaf count has not
wrapped around. Otherwise the first leaf lies outside the array. -/
theorem walksSafely_iff (hpadded : t.paddedLeafCount < 2 ^ 64)
    (hcount : (t.nodes.length : Int) = (2 * t.paddedLeafCount - 1) % 2 ^ 64)
    (hroom : t.nodes.length * hashSize ≤ isizeMax) :
    t.WalksSafely sha256 checks ↔ t.paddedLeafCount < 2 ^ 63 := by
  unfold hashSize isizeMax at hroom
  constructor
  · intro hsafe
    by_contra hwrapped
    obtain ⟨path, hpath⟩ := hsafe.path 0
    obtain ⟨hin, -⟩ := (authPath_eq_ok_iff (by omega) (by omega)).mp hpath
    -- the first leaf is at the padded leaf count less one, beyond an array that was cut short
    have hleaf : t.leafNode 0 = t.paddedLeafCount - 1 := rfl
    have hsibling := hin (Heap.siblingOf (t.leafNode 0)) (by
      rw [Heap.siblings_pos (by omega)]
      exact List.mem_cons_self)
    unfold Heap.siblingOf at hsibling
    split at hsibling <;> omega
  · intro hfits
    have hnodes : t.nodes.length + 1 = 2 * t.paddedLeafCount := by omega
    constructor
    · exact ⟨t.node 0, nodeAt_eq_ok_iff.mpr ⟨by omega, rfl⟩⟩
    · intro i b root
      by_cases hi : i < t.paddedLeafCount
      · exact ⟨_, tryVerifyBlock_eq hnodes (by omega)⟩
      · exact ⟨false, by rw [tryVerifyBlock, if_pos (Nat.not_lt.mp hi)]⟩
    · intro i
      by_cases hi : i < t.paddedLeafCount
      · exact ⟨_, (authPath_eq_ok_iff hi (by omega)).mpr ⟨leafNode_inBounds hnodes hi, rfl⟩⟩
      · exact ⟨[], by rw [authPath, if_pos (Nat.not_lt.mp hi)]⟩

/-- A file is read and walked safely exactly if its header fits. -/
theorem readsSafely_iff (sha256 : Bytes → Hash256) (checks : Bool) (file : Bytes) :
    ReadsSafely sha256 checks file ↔ HeaderFits checks file := by
  unfold ReadsSafely HeaderFits
  by_cases hlen : 24 ≤ file.length
  · simp only [fromBytes_eq_ok_iff hlen, hlen, true_implies]
    constructor
    · rintro ⟨read, ⟨hfits, h⟩, hsafe⟩
      refine ⟨hfits, fun hsized => ?_⟩
      -- the checks of the header are made one after the other, so each case assumes those before
      obtain ⟨hne, -⟩ | ⟨-, hpadded, h⟩ := h
      · exact absurd hsized hne
      · refine ⟨hpadded, fun hcounted => ?_⟩
        obtain ⟨hne, -⟩ | ⟨-, hroom, rfl⟩ := h
        · exact absurd hcounted hne
        · obtain ⟨t, ht⟩ := treeOf_isSome hsized hroom
          obtain ⟨hcount, hpad⟩ := treeOf_counts ht
          have hwalks := (hsafe t ht).2
          rw [walksSafely_iff (hpad ▸ paddedOf_lt file) (by rw [hcount, hpad]; exact hcounted)
            (hcount ▸ hroom), hpad] at hwalks
          exact ⟨hroom, hwalks⟩
    · rintro ⟨hfits, h⟩
      by_cases hsized : Sized file
      · obtain ⟨hpadded, h⟩ := h hsized
        by_cases hcounted : Counted file
        · obtain ⟨hroom, hlt⟩ := h hcounted
          refine ⟨treeOf file, ⟨hfits, Or.inr ⟨hsized, hpadded, Or.inr ⟨hcounted, hroom, rfl⟩⟩⟩, ?_⟩
          intro t ht
          obtain ⟨hcount, hpad⟩ := treeOf_counts ht
          rw [walksSafely_iff (hpad ▸ paddedOf_lt file) (by rw [hcount, hpad]; exact hcounted)
            (hcount ▸ hroom), hcount, hpad]
          refine ⟨?_, hlt⟩
          unfold Sized hashSize isizeMax at *
          omega
        · exact ⟨none, ⟨hfits, Or.inr ⟨hsized, hpadded, Or.inl ⟨hcounted, rfl⟩⟩⟩, by simp⟩
      · exact ⟨none, ⟨hfits, Or.inl ⟨hsized, rfl⟩⟩, by simp⟩
  · refine iff_of_true ⟨none, ?_, by simp⟩ fun h => absurd h hlen
    rw [fromBytes, if_pos (Nat.not_le.mp hlen)]

/-- A file with one node and a padded leaf count that has wrapped around. -/
def wrappedFile : Bytes :=
  u64Bytes 1 ++ u64Bytes (2 ^ 63 + 1) ++ u64Bytes 1 ++ zeroHash.val

/-- With overflow checks a header of zeros ends the process. Without them a file is accepted
over which the walk from the first block leaves the array. -/
theorem not_readsSafely :
    ¬ ReadsSafely zeroSha256 true (List.replicate 24 0) ∧
      ¬ ReadsSafely zeroSha256 false wrappedFile := by
  constructor
  · rintro ⟨read, hread, -⟩
    have hpanic : fromBytes true (List.replicate 24 0) = .error .overflow := by decide +kernel
    exact absurd (hread.symm.trans hpanic) (by simp)
  · rintro ⟨read, hread, hsafe⟩
    have haccepted : fromBytes false wrappedFile = .ok (some ⟨[zeroHash], 1, 2 ^ 63 + 1⟩) := by
      decide +kernel
    obtain rfl := Except.ok.inj (hread.symm.trans haccepted)
    obtain ⟨siblings, hpath⟩ := (hsafe _ rfl).2.path 0
    have hpanic : authPath false ⟨[zeroHash], 1, 2 ^ 63 + 1⟩ 0 = .error .indexOutOfBounds := by
      decide +kernel
    exact absurd (hpath.symm.trans hpanic) (by simp)

end MerkleTree

end Rspacefs
