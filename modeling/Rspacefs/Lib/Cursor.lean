import Mathlib.Data.List.Basic

/-!
# Slices and read cursors

A slice of a list is what stands in it from a position on, up to a length. A cursor is
a position in a list that is moved by seeking and by reading: reading from a position
gives the slice and moves the cursor behind it. `Cursor.Step` also lets a read fail,
and then leaves the new position open up to the end of what was asked for.

## Main definitions

* `Lib.slice` — the elements from a position on
* `Lib.Cursor.Step`, `Lib.Cursor.Trace` — one call, and a sequence of calls

## Main results

* `slice_append_slice` — slices that meet make a slice
* `slice_slice` — a slice of a slice is a slice
-/

namespace Rspacefs.Lib

variable {α : Type*} {l l' : List α} {p k j : Nat}

/-- At most `k` elements from position `p` on. -/
def slice (l : List α) (p k : Nat) : List α := (l.drop p).take k

@[simp] theorem length_slice : (slice l p k).length = min k (l.length - p) := by
  simp [slice]

@[simp] theorem slice_zero : slice l p 0 = [] := by simp [slice]

theorem slice_of_length_le (h : l.length ≤ p) : slice l p k = [] := by
  simp [slice, List.drop_eq_nil_of_le h]

/-- Nothing is behind the end. -/
theorem slice_min_length : slice l p (min k (l.length - p)) = slice l p k := by
  rw [slice, slice, List.take_eq_take_iff, List.length_drop]
  omega

/-- Slices that meet make a slice. -/
theorem slice_append_slice : slice l p j ++ slice l (p + j) k = slice l p (j + k) := by
  rw [slice, slice, slice, ← List.drop_drop, ← List.take_add]

/-- A slice of a slice. -/
theorem slice_slice (h : j + k ≤ p) (q : Nat) : slice (slice l q p) j k = slice l (q + j) k := by
  simp only [slice]
  rw [List.drop_take, List.drop_drop, List.take_take, Nat.min_eq_left (by omega)]

/-- What is behind the slice does not count. -/
theorem slice_append_left (h : p + k ≤ l.length) : slice (l ++ l') p k = slice l p k := by
  simp only [slice]
  rw [List.drop_append_of_le_length (by omega), List.take_append_of_le_length (by simp; omega)]

/-- What is before the slice shifts it. -/
theorem slice_append_right : slice (l ++ l') (l.length + p) k = slice l' p k := by
  rw [slice, slice, List.drop_append, List.drop_eq_nil_of_le (Nat.le_add_right _ _),
    List.nil_append, Nat.add_sub_cancel_left]

/-! ### Cursors -/

/-- `io::SeekFrom`. -/
inductive SeekFrom
  | start (position : Nat)
  | fromEnd (offset : Int)
  | current (offset : Int)
  deriving DecidableEq, Repr

/-- Where a seek leads, which may be before the start. -/
def SeekFrom.target (length position : Nat) : SeekFrom → Int
  | .start p => p
  | .fromEnd d => length + d
  | .current d => position + d

namespace Cursor

/-- A call on a cursor. `mayFail` says when a read may fail. -/
inductive Request
  | seek (from_ : SeekFrom)
  | read (size : Nat) (mayFail : Prop)

/-- The answer to a call. -/
inductive Reply (α : Type*)
  | position (p : Nat)
  | data (elements : List α)
  | failed

/-- One call on a cursor over `l`, from one position to the next. -/
inductive Step (l : List α) : Nat → Request → Reply α → Nat → Prop
  | seek {p : Nat} {from_ : SeekFrom} (h : 0 ≤ from_.target l.length p) :
    Step l p (.seek from_) (.position (from_.target l.length p).toNat)
      (from_.target l.length p).toNat
  | seekBefore {p : Nat} {from_ : SeekFrom} (h : from_.target l.length p < 0) :
    Step l p (.seek from_) .failed p
  | read {p k : Nat} {mayFail : Prop} :
    Step l p (.read k mayFail) (.data (slice l p k)) (p + (slice l p k).length)
  | readFailed {p q k : Nat} {mayFail : Prop} (h : mayFail) (hle : p ≤ q) (hq : q ≤ p + k) :
    Step l p (.read k mayFail) .failed q

/-- A sequence of calls with their answers. -/
def Trace (l : List α) : Nat → List (Request × Reply α) → Prop
  | _, [] => True
  | p, (request, reply) :: rest => ∃ q, Step l p request reply q ∧ Trace l q rest

end Cursor

end Rspacefs.Lib
