import Mathlib.Algebra.Order.Group.Nat

/-!
# Numbers in a radix

How a text is read as an unsigned number: an optional plus sign, then digits, the most significant
first. A number that does not fit is an error, and so are a sign alone and no text at all.

## Main definitions

* `Lib.digitValue` — one digit, in any radix up to 36
* `Lib.fromStrRadix` — a text as a number below a limit

## Main results

* `digit_of_mem` — a text that is read holds only digits behind its sign
* `fromStrRadix_pair_iff` — which texts of two bytes are read
-/

namespace Rspacefs.Lib

variable {radix limit v value : Nat} {b : UInt8} {bytes : List UInt8}

/-- The value of a digit: the letters stand for the values from 10 on. -/
def digitValue (radix : Nat) (b : UInt8) : Option Nat :=
  let value :=
    if 48 ≤ b.toNat ∧ b.toNat ≤ 57 then some (b.toNat - 48)
    else if 97 ≤ b.toNat ∧ b.toNat ≤ 122 then some (b.toNat - 87)
    else if 65 ≤ b.toNat ∧ b.toNat ≤ 90 then some (b.toNat - 55)
    else none
  value.filter (· < radix)

/-- The digits behind those that gave `value`. -/
def fromDigits (radix limit : Nat) : Nat → List UInt8 → Option Nat
  | value, [] => some value
  | value, b :: digits => do
    let d ← digitValue radix b
    if value * radix + d < limit then fromDigits radix limit (value * radix + d) digits else none

/-- A text as a number below `limit`. -/
def fromStrRadix (radix limit : Nat) : List UInt8 → Option Nat
  | [] => none
  | b :: digits =>
    -- A sign alone is not a digit either.
    if b = 43 ∧ digits ≠ [] then fromDigits radix limit 0 digits
    else fromDigits radix limit 0 (b :: digits)

theorem digit_of_mem_digits (h : fromDigits radix limit value bytes = some v) (hb : b ∈ bytes) :
    (digitValue radix b).isSome = true := by
  induction bytes generalizing value with
  | nil => cases hb
  | cons first digits ih =>
    obtain ⟨d, hd, h⟩ := Option.bind_eq_some_iff.mp h
    rcases List.mem_cons.mp hb with rfl | hb
    · rw [hd]
      rfl
    · split at h
      · exact ih h hb
      · cases h

/-- A text that is read holds only digits behind its sign. -/
theorem digit_of_mem (h : fromStrRadix radix limit bytes = some v) (hb : b ∈ bytes) :
    b = 43 ∨ (digitValue radix b).isSome = true := by
  cases bytes with
  | nil => cases hb
  | cons first digits =>
    rw [fromStrRadix] at h
    split at h
    · rename_i hsign
      rcases List.mem_cons.mp hb with hfirst | hb
      · exact .inl (hfirst.trans hsign.1)
      · exact .inr (digit_of_mem_digits h hb)
    · exact .inr (digit_of_mem_digits h hb)

/-! ### Two bytes -/

theorem digitValue_lt {d : Nat} (h : digitValue radix b = some d) : d < radix :=
  of_decide_eq_true (Option.filter_eq_some_iff.mp h).2

/-- A digit is a character below 128. -/
theorem toNat_lt_of_digit (h : (digitValue radix b).isSome = true) : b.toNat < 128 := by
  unfold digitValue at h
  split at h
  · omega
  · split at h
    · omega
    · split at h
      · omega
      · cases h

/-- A sign is not a digit. -/
theorem digitValue_sign : digitValue radix 43 = none := rfl

/-- Two digits below a limit that fits them. -/
theorem fromDigits_pair {a : UInt8} (hlimit : radix * radix ≤ limit) :
    fromDigits radix limit 0 [a, b] = some v ↔
      ∃ x y, digitValue radix a = some x ∧ digitValue radix b = some y ∧ v = x * radix + y := by
  constructor
  · intro h
    obtain ⟨x, hx, h⟩ := Option.bind_eq_some_iff.mp h
    split at h
    · obtain ⟨y, hy, h⟩ := Option.bind_eq_some_iff.mp h
      split at h
      · rw [Nat.zero_mul, Nat.zero_add] at h
        exact ⟨x, y, hx, hy, (Option.some_inj.mp h).symm⟩
      · cases h
    · cases h
  · rintro ⟨x, y, hx, hy, rfl⟩
    have hxlt := digitValue_lt hx
    have hylt := digitValue_lt hy
    have hle : (x + 1) * radix ≤ radix * radix := Nat.mul_le_mul_right radix hxlt
    have hself : x ≤ x * radix := Nat.le_mul_of_pos_right x (Nat.zero_lt_of_lt hylt)
    rw [Nat.succ_mul] at hle
    simp only [fromDigits, hx, hy, Option.bind_eq_bind, Option.bind_some, Nat.zero_mul,
      Nat.zero_add]
    rw [if_pos (by omega), if_pos (by omega)]

/-- Two bytes are read if the second is a digit and the first is one or a sign. -/
theorem fromStrRadix_pair_iff {a : UInt8} (hlimit : radix * radix ≤ limit) :
    fromStrRadix radix limit [a, b] = some v ↔
      ∃ y, digitValue radix b = some y ∧
        (a = 43 ∧ v = y ∨ ∃ x, digitValue radix a = some x ∧ v = x * radix + y) := by
  -- a leading plus sign is dropped, and is no digit itself
  by_cases hsign : a = 43
  · subst hsign
    rw [fromStrRadix, if_pos ⟨rfl, List.cons_ne_nil _ _⟩]
    constructor
    · intro h
      obtain ⟨y, hy, h⟩ := Option.bind_eq_some_iff.mp h
      split at h
      · rw [Nat.zero_mul, Nat.zero_add] at h
        exact ⟨y, hy, .inl ⟨rfl, (Option.some_inj.mp h).symm⟩⟩
      · cases h
    · rintro ⟨y, hy, ⟨-, rfl⟩ | ⟨x, hx, -⟩⟩
      · have hlt := digitValue_lt hy
        have hself : radix ≤ radix * radix :=
          Nat.le_mul_of_pos_right radix (Nat.zero_lt_of_lt hlt)
        simp only [fromDigits, hy, Option.bind_eq_bind, Option.bind_some, Nat.zero_mul,
          Nat.zero_add]
        rw [if_pos (by omega)]
      · rw [digitValue_sign] at hx
        cases hx
  · rw [fromStrRadix, if_neg fun h => hsign h.1, fromDigits_pair hlimit]
    constructor
    · rintro ⟨x, y, hx, hy, rfl⟩
      exact ⟨y, hy, .inr ⟨x, hx, rfl⟩⟩
    · rintro ⟨y, hy, ⟨ha, -⟩ | ⟨x, hx, rfl⟩⟩
      · exact absurd ha hsign
      · exact ⟨x, y, hx, hy, rfl⟩

end Rspacefs.Lib
