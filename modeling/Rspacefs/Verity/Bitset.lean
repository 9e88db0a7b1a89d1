import Mathlib.Data.Finset.Card
import Mathlib.Data.List.Range
import Rspacefs.Lib.Bits
import Rspacefs.Verity.TreeFile
import Rspacefs.Verity.VerifyBlocks

/-!
# The bits of the verified-block cache

`VerifiedBlockCache` of `rspacefs-verity/src/verity.rs` has one bit for each block. A mark is one
`fetch_or`, so the marks of any callers take effect one after the other, in some order.

## Main definitions

* `VerifiedBlockCache` — the bytes, with the source's functions on them
* `VerifiedBlockCache.Represents` — the bits are those of a set of blocks

## Main results

* `Represents.markVerified` — the bits follow the set, and no index is out of bounds
* `marked_iff` — after any marks the cache has the blocks marked, and counts them
-/

namespace Rspacefs

open Lib

structure VerifiedBlockCache where
  bits : List UInt8
  blockCount : Nat
  rootHash : Hash256
  deriving DecidableEq

namespace VerifiedBlockCache

/-- Create a new cache for `blockCount` blocks. -/
def new (blockCount : Nat) (rootHash : Hash256) : VerifiedBlockCache :=
  { bits := List.replicate ((blockCount + 7) / 8) 0
    blockCount
    rootHash }

/-- Indexing into the bytes. -/
def byteAt (cache : VerifiedBlockCache) (byteIdx : Nat) : Except Panic UInt8 :=
  match cache.bits[byteIdx]? with
  | some byte => .ok byte
  | none => .error .indexOutOfBounds

/-- Check if a block has been verified. -/
def isVerified (cache : VerifiedBlockCache) (blockIndex : Nat) : Except Panic Bool :=
  if cache.blockCount ≤ blockIndex then .ok false
  else do
    let byte ← cache.byteAt (blockIndex / 8)
    return testBit byte (blockIndex % 8)

/-- The cache with one bit set in one of its bytes. -/
def orByte (cache : VerifiedBlockCache) (byteIdx : Nat) (byte : UInt8) (bitIdx : Nat) :
    VerifiedBlockCache :=
  { cache with bits := cache.bits.set byteIdx (setBit byte bitIdx) }

/-- Mark a block as verified. -/
def markVerified (cache : VerifiedBlockCache) (blockIndex : Nat) :
    Except Panic VerifiedBlockCache :=
  if cache.blockCount ≤ blockIndex then .ok cache
  else do
    let byte ← cache.byteAt (blockIndex / 8)
    return cache.orByte (blockIndex / 8) byte (blockIndex % 8)

/-- Number of blocks verified so far. -/
def verifiedCount (cache : VerifiedBlockCache) : Except Panic Nat :=
  (List.range cache.blockCount).foldlM
    (fun count i => do return if ← cache.isVerified i then count + 1 else count) 0

/-- The marks of all callers, in the order in which they take effect. -/
def markAll (cache : VerifiedBlockCache) (marks : List Nat) : Except Panic VerifiedBlockCache :=
  marks.foldlM markVerified cache

/-- The cache has a bit for every block, and those of the blocks in `marked` are set. -/
structure Represents (cache : VerifiedBlockCache) (marked : BlockCache) : Prop where
  blockCount : cache.blockCount = marked.blockCount
  size : cache.bits.length = (cache.blockCount + 7) / 8
  bit : ∀ i < cache.blockCount, ∀ byte, cache.bits[i / 8]? = some byte →
    testBit byte (i % 8) = decide (i ∈ marked.verified)

variable {cache : VerifiedBlockCache} {marked : BlockCache} {i : Nat}

/-! ### One mark -/

theorem mod_eight_lt (i : Nat) : i % 8 < 8 := Nat.mod_lt i (by decide)

/-- Blocks with the same byte and the same bit are the same. -/
theorem eq_of_div_of_mod {i j : Nat} (hbyte : i / 8 = j / 8) (hbit : i % 8 = j % 8) : i = j := by
  omega

theorem represents_new (blockCount : Nat) (rootHash : Hash256) :
    (new blockCount rootHash).Represents (.new blockCount) where
  blockCount := rfl
  size := List.length_replicate
  bit i _ byte hbyte := by
    have hzero : byte = 0 := List.eq_of_mem_replicate (List.mem_of_getElem? hbyte)
    rw [hzero, testBit_zero (mod_eight_lt i)]
    rfl

/-- Every block has its byte, also where the last byte is not full. -/
theorem Represents.byteAt (h : cache.Represents marked) (hi : i < cache.blockCount) :
    ∃ byte, cache.byteAt (i / 8) = .ok byte ∧ cache.bits[i / 8]? = some byte := by
  have hsize := h.size
  have hlt : i / 8 < cache.bits.length := by omega
  refine ⟨cache.bits[i / 8], ?_, List.getElem?_eq_getElem hlt⟩
  rw [VerifiedBlockCache.byteAt, List.getElem?_eq_getElem hlt]

theorem Represents.isVerified (h : cache.Represents marked) (i : Nat) :
    cache.isVerified i = .ok (marked.isVerified i) := by
  unfold VerifiedBlockCache.isVerified BlockCache.isVerified
  rw [h.blockCount]
  by_cases hi : marked.blockCount ≤ i
  · rw [if_pos hi, if_pos hi]
  · have hlt : i < cache.blockCount := by
      rw [h.blockCount]
      omega
    obtain ⟨byte, hbyte, hget⟩ := h.byteAt hlt
    rw [if_neg hi, if_neg hi, hbyte, ← h.bit i hlt byte hget]
    rfl

/-- A mark sets the bit of its block and no other. -/
theorem Represents.orByte (h : cache.Represents marked) {byte : UInt8}
    (hbyte : cache.bits[i / 8]? = some byte) :
    (cache.orByte (i / 8) byte (i % 8)).Represents
      { marked with verified := i :: marked.verified } where
  blockCount := h.blockCount
  size := List.length_set.trans h.size
  bit j hj byte' hbyte' := by
    have hset : (cache.bits.set (i / 8) (setBit byte (i % 8)))[j / 8]? = some byte' := hbyte'
    have hin : i / 8 < cache.bits.length := (List.getElem?_eq_some_iff.mp hbyte).1
    rw [List.getElem?_set] at hset
    by_cases hsame : i / 8 = j / 8
    · rw [if_pos hsame, if_pos hin] at hset
      obtain rfl := Option.some_inj.mp hset
      rw [testBit_setBit (mod_eight_lt j) (mod_eight_lt i), h.bit j hj byte (hsame ▸ hbyte)]
      by_cases hij : i = j
      · simp [hij]
      · have hbit : i % 8 ≠ j % 8 := fun hbit => hij (eq_of_div_of_mod hsame hbit)
        simp [hbit, Ne.symm hij]
    · rw [if_neg hsame] at hset
      have hij : j ≠ i := fun hij => hsame (by rw [hij])
      rw [h.bit j hj byte' hset]
      simp [hij]

/-- The bits follow the set, and no index is out of bounds. -/
theorem Represents.markVerified (h : cache.Represents marked) (i : Nat) :
    ∃ cache', cache.markVerified i = .ok cache' ∧ cache'.Represents (marked.markVerified i) := by
  unfold VerifiedBlockCache.markVerified BlockCache.markVerified
  rw [h.blockCount]
  by_cases hi : marked.blockCount ≤ i
  · rw [if_pos hi, if_pos hi]
    exact ⟨cache, rfl, h⟩
  · have hlt : i < cache.blockCount := by
      rw [h.blockCount]
      omega
    obtain ⟨byte, hbyte, hget⟩ := h.byteAt hlt
    rw [if_neg hi, if_neg hi, hbyte]
    exact ⟨_, rfl, h.orByte hget⟩

/-! ### Any marks -/

theorem Represents.markAll (h : cache.Represents marked) (marks : List Nat) :
    ∃ cache', cache.markAll marks = .ok cache' ∧
      cache'.Represents (marks.foldl BlockCache.markVerified marked) := by
  induction marks generalizing cache marked with
  | nil => exact ⟨cache, rfl, h⟩
  | cons i marks ih =>
    obtain ⟨next, hnext, hrep⟩ := h.markVerified i
    obtain ⟨last, hlast, hrest⟩ := ih hrep
    refine ⟨last, ?_, hrest⟩
    rw [VerifiedBlockCache.markAll, List.foldlM_cons, hnext]
    exact hlast

/-- The marks of a set of blocks are those below the number of blocks. -/
theorem blocks_of_marks (marked : BlockCache) (marks : List Nat) (i : Nat) :
    (marks.foldl BlockCache.markVerified marked).blockCount = marked.blockCount ∧
      ((marks.foldl BlockCache.markVerified marked).isVerified i = true ↔
        marked.isVerified i = true ∨ i < marked.blockCount ∧ i ∈ marks) := by
  induction marks generalizing marked with
  | nil => simp
  | cons j marks ih =>
    have hcount : (marked.markVerified j).blockCount = marked.blockCount := by
      unfold BlockCache.markVerified
      split <;> rfl
    have hone : (marked.markVerified j).isVerified i = true ↔
        marked.isVerified i = true ∨ i < marked.blockCount ∧ i = j := by
      unfold BlockCache.markVerified BlockCache.isVerified
      -- a block beyond the end is not marked
      by_cases hj : marked.blockCount ≤ j
      · rw [if_pos hj]
        constructor
        · exact .inl
        · intro h
          rcases h with h | ⟨hlt, rfl⟩
          · exact h
          · omega
      · rw [if_neg hj]
        by_cases hi : marked.blockCount ≤ i
        · simp [hi]
        · have hlt : i < marked.blockCount := Nat.not_le.mp hi
          rw [if_neg hi, if_neg hi, decide_eq_true_iff, decide_eq_true_iff, List.mem_cons,
            and_iff_right hlt, or_comm]
    obtain ⟨hrest, hmarked⟩ := ih (marked.markVerified j)
    rw [List.foldl_cons, hrest, hmarked, hcount, hone, List.mem_cons, and_or_left, or_assoc]
    exact ⟨rfl, Iff.rfl⟩

/-- The loop counts the blocks that are verified. -/
theorem Represents.verifiedCount (h : cache.Represents marked) :
    cache.verifiedCount = .ok ((List.range cache.blockCount).countP marked.isVerified) := by
  have hloop : ∀ (blocks : List Nat) (count : Nat),
      blocks.foldlM
        (fun count i => do return if ← cache.isVerified i then count + 1 else count) count =
          (.ok (count + blocks.countP marked.isVerified) : Except Panic Nat) := by
    intro blocks
    induction blocks with
    | nil => exact fun count => rfl
    | cons i blocks ih =>
      intro count
      rw [List.foldlM_cons, h.isVerified, List.countP_cons]
      change blocks.foldlM _ (if marked.isVerified i then count + 1 else count) = _
      rw [ih]
      congr 1
      split <;> omega
  have hall := hloop (List.range cache.blockCount) 0
  rw [Nat.zero_add] at hall
  exact hall

/-- After any marks in any order, the blocks verified are those marked that the cache covers, and
their number is that of the different blocks among them. -/
theorem marked_iff (blockCount : Nat) (rootHash : Hash256) (marks : List Nat) :
    ∃ cache, (new blockCount rootHash).markAll marks = .ok cache ∧
      (∀ i, cache.isVerified i = .ok (decide (i < blockCount ∧ i ∈ marks))) ∧
      cache.verifiedCount = .ok (marks.toFinset.filter (· < blockCount)).card := by
  obtain ⟨cache, hmark, hrep⟩ := (represents_new blockCount rootHash).markAll marks
  have hblocks : ∀ i, (marks.foldl BlockCache.markVerified (.new blockCount)).isVerified i =
      decide (i < blockCount ∧ i ∈ marks) := by
    intro i
    have hiff := (blocks_of_marks (.new blockCount) marks i).2
    have hnone : (BlockCache.new blockCount).isVerified i = false := by
      unfold BlockCache.isVerified
      split <;> rfl
    rw [hnone] at hiff
    rw [Bool.eq_iff_iff, hiff, decide_eq_true_iff]
    simp [BlockCache.new]
  have hcount : cache.blockCount = blockCount :=
    hrep.blockCount.trans (blocks_of_marks (.new blockCount) marks 0).1
  refine ⟨cache, hmark, ?_, ?_⟩
  · intro i
    rw [hrep.isVerified, hblocks]
  · have hset : ((List.range blockCount).filter fun i => decide (i < blockCount ∧ i ∈ marks)).toFinset =
        marks.toFinset.filter (· < blockCount) := by
      ext i
      simp only [List.mem_toFinset, List.mem_filter, List.mem_range, decide_eq_true_eq,
        Finset.mem_filter]
      tauto
    rw [hrep.verifiedCount, hcount, funext hblocks, List.countP_eq_length_filter, ← hset,
      List.toFinset_card_of_nodup (List.nodup_range.filter _)]

end VerifiedBlockCache

end Rspacefs
