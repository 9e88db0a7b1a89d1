import Mathlib.Data.Nat.Bitwise

/-!
# Bits of a byte

Reading a bit by a shift and a mask, and setting it by an `or`. Setting one bit changes no other.

## Main definitions

* `Lib.testBit`, `Lib.setBit` — one bit of a byte

## Main results

* `testBit_setBit` — a bit after a bit was set
-/

namespace Rspacefs.Lib

/-- `(b >> k) & 1 == 1`. -/
def testBit (b : UInt8) (k : Nat) : Bool := (b >>> UInt8.ofNat k) &&& 1 == 1

/-- `b | (1 << k)`. -/
def setBit (b : UInt8) (k : Nat) : UInt8 := b ||| (1 <<< UInt8.ofNat k)

variable {b : UInt8} {j k : Nat}

theorem toNat_shift (hk : k < 8) : (UInt8.ofNat k).toNat % 8 = k := by
  rw [UInt8.toNat_ofNat']
  omega

/-- The shift and the mask read the binary digit. -/
theorem testBit_eq (hk : k < 8) : testBit b k = b.toNat.testBit k := by
  have hand : ((b >>> UInt8.ofNat k) &&& 1).toNat = 1 &&& b.toNat >>> k := by
    rw [UInt8.toNat_and, UInt8.toNat_shiftRight, toNat_shift hk, Nat.and_comm]
    rfl
  have hone : ((b >>> UInt8.ofNat k) &&& 1 == 1) = (1 &&& b.toNat >>> k == 1) := by
    rw [← hand, Bool.eq_iff_iff, beq_iff_eq, beq_iff_eq, ← UInt8.toNat_inj]
    rfl
  rw [testBit, hone, Nat.testBit, Nat.one_and_eq_mod_two]
  rcases Nat.mod_two_eq_zero_or_one (b.toNat >>> k) with h | h
  · rw [h]
    rfl
  · rw [h]
    rfl

theorem toNat_setBit (hk : k < 8) : (setBit b k).toNat = b.toNat ||| 2 ^ k := by
  have hpow : 2 ^ k < 2 ^ 8 := Nat.pow_lt_pow_right (by decide) hk
  rw [setBit, UInt8.toNat_or, UInt8.toNat_shiftLeft, toNat_shift hk, Nat.shiftLeft_eq]
  rw [show (1 : UInt8).toNat = 1 from rfl, Nat.one_mul, Nat.mod_eq_of_lt hpow]

theorem testBit_zero (hk : k < 8) : testBit 0 k = false := by
  rw [testBit_eq hk]
  exact Nat.zero_testBit k

/-- A bit is set if it was, or is the one that was set. -/
theorem testBit_setBit (hj : j < 8) (hk : k < 8) :
    testBit (setBit b k) j = (testBit b j || decide (k = j)) := by
  rw [testBit_eq hj, testBit_eq hj, toNat_setBit hk, Nat.testBit_or, Nat.testBit_two_pow]

end Rspacefs.Lib
