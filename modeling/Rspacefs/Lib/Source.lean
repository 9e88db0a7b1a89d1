import Mathlib.Data.List.Basic
import Rspacefs.Lib.Cursor

/-!
# Sources that give less than was asked for

A source is read from the front. Each call gives at least one item, at most as many as were
asked for, and nothing only at the end; how many, is up to the source.

## Main definitions

* `Lib.Source`, `Source.read` — a source, and one call
* `Source.chunks` — what calls for `w` items give, until the end
* `Source.skip` — calls that are made to pass a number of items

## Main results

* `Source.le_length_chunks` — there are no fewer chunks than pieces of full length
* `Source.rest_skip` — skipping ends behind the items skipped
-/

namespace Rspacefs.Lib

variable {α : Type*} {w n want : Nat}

/-- What is left of a list, and how many items each coming call is ready to give. -/
structure Source (α : Type*) where
  rest : List α
  gives : Nat → Nat

namespace Source

variable {s : Source α}

/-- How many items a call gives, if there are as many left. -/
def amount (s : Source α) (want : Nat) : Nat := min (max 1 (s.gives 0)) want

/-- One call: what it gives, and the source behind it. -/
def read (s : Source α) (want : Nat) : List α × Source α :=
  (s.rest.take (s.amount want), ⟨s.rest.drop (s.amount want), fun k => s.gives (k + 1)⟩)

theorem amount_pos (hwant : 0 < want) : 0 < s.amount want := by
  unfold amount
  omega

theorem amount_le (s : Source α) (want : Nat) : s.amount want ≤ want := Nat.min_le_right _ _

theorem read_eq_nil_iff (hwant : 0 < want) : (s.read want).1 = [] ↔ s.rest = [] := by
  have hpos : 0 < s.amount want := amount_pos hwant
  rw [read, List.take_eq_nil_iff]
  constructor
  · rintro (hzero | hnil)
    · omega
    · exact hnil
  · exact Or.inr

/-- What calls for `w` items give, until one gives nothing. -/
def chunks (w : Nat) (s : Source α) : List (List α) :=
  if _h : s.rest = [] ∨ w = 0 then []
  else (s.read w).1 :: chunks w (s.read w).2
termination_by s.rest.length
decreasing_by
  rw [not_or] at _h
  have hpos : 0 < s.amount w := amount_pos (Nat.pos_of_ne_zero _h.2)
  have hlen := List.length_pos_iff.mpr _h.1
  change (s.rest.drop (s.amount w)).length < s.rest.length
  rw [List.length_drop]
  omega

/-- Calls for at most `w` items, made to pass `n` items; a call that gives nothing ends them. -/
def skip (w n : Nat) (s : Source α) : Source α :=
  if _h : n = 0 ∨ w = 0 then s
  else if (s.read (min n w)).1 = [] then (s.read (min n w)).2
  else skip w (n - (s.read (min n w)).1.length) (s.read (min n w)).2
termination_by n
decreasing_by
  rename_i hne
  have hlen := List.length_pos_iff.mpr hne
  omega

theorem chunks_cons (hw : 0 < w) (h : s.rest ≠ []) :
    s.chunks w = (s.read w).1 :: (s.read w).2.chunks w := by
  rw [chunks, dif_neg]
  rw [not_or]
  exact ⟨h, Nat.ne_of_gt hw⟩

/-- To prove something about the chunks, go through them in order. -/
theorem chunks_induction (hw : 0 < w) {P : Source α → Prop} (hnil : ∀ s, s.rest = [] → P s)
    (hcons : ∀ s, s.rest ≠ [] → P (s.read w).2 → P s) (s : Source α) : P s := by
  obtain ⟨k, hk⟩ : ∃ k, s.rest.length = k := ⟨_, rfl⟩
  induction k using Nat.strongRecOn generalizing s with
  | _ k ih =>
    by_cases h : s.rest = []
    · exact hnil s h
    · refine hcons s h (ih (s.read w).2.rest.length ?_ _ rfl)
      have hpos : 0 < s.amount w := amount_pos hw
      have hlen := List.length_pos_iff.mpr h
      change (s.rest.drop (s.amount w)).length < k
      rw [List.length_drop]
      omega

/-- There are no fewer chunks than pieces of full length. -/
theorem le_length_chunks (hw : 0 < w) (s : Source α) :
    s.rest.length ≤ (s.chunks w).length * w := by
  induction s using chunks_induction hw with
  | hnil s h =>
    rw [h]
    exact Nat.zero_le _
  | hcons s h ih =>
    have hamount := amount_le s w
    change (s.rest.drop (s.amount w)).length ≤ _ at ih
    rw [List.length_drop] at ih
    rw [chunks_cons hw h, List.length_cons, Nat.succ_mul]
    omega

/-- Skipping ends behind the items skipped. -/
theorem rest_skip (hw : 0 < w) (s : Source α) (n : Nat) : (s.skip w n).rest = s.rest.drop n := by
  induction n using Nat.strongRecOn generalizing s with
  | _ n ih =>
    rw [skip]
    by_cases hn : n = 0
    · rw [dif_pos (Or.inl hn), hn, List.drop_zero]
    · have hwant : 0 < min n w := by omega
      rw [dif_neg (by omega)]
      by_cases hnil : (s.read (min n w)).1 = []
      · rw [if_pos hnil]
        rw [read_eq_nil_iff hwant] at hnil
        change s.rest.drop (s.amount (min n w)) = _
        rw [hnil, List.drop_nil, List.drop_nil]
      · have hlen := List.length_pos_iff.mpr hnil
        have hamount := amount_le s (min n w)
        have htake : (s.read (min n w)).1.length = min (s.amount (min n w)) s.rest.length :=
          List.length_take
        rw [if_neg hnil, ih _ (by omega)]
        change (s.rest.drop (s.amount (min n w))).drop _ = _
        rw [List.drop_drop, htake]
        by_cases hshort : s.rest.length ≤ s.amount (min n w)
        · -- the call gave all that was left
          rw [List.drop_eq_nil_of_le (by omega), List.drop_eq_nil_of_le (by omega)]
        · congr 1
          omega

/-! ### Full reads -/

/-- Every call is ready to give as much as it is asked for. -/
def Full (w : Nat) (s : Source α) : Prop := ∀ k, w ≤ s.gives k

theorem Full.amount (h : s.Full w) (hwant : 0 < want) (hle : want ≤ w) : s.amount want = want := by
  have hgives := h 0
  unfold Source.amount
  omega

theorem Full.read (h : s.Full w) (want : Nat) : (s.read want).2.Full w := fun k => h (k + 1)

theorem Full.skip (h : s.Full w) (n : Nat) : (s.skip w n).Full w := by
  induction n using Nat.strongRecOn generalizing s with
  | _ n ih =>
    rw [Source.skip]
    by_cases hstop : n = 0 ∨ w = 0
    · rw [dif_pos hstop]
      exact h
    · rw [dif_neg hstop]
      by_cases hnil : (s.read (min n w)).1 = []
      · rw [if_pos hnil]
        exact h.read _
      · have hlen := List.length_pos_iff.mpr hnil
        rw [if_neg hnil]
        exact ih _ (by omega) (h.read _)

end Source

end Rspacefs.Lib
