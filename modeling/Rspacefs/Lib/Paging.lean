import Mathlib.Data.List.Nodup
import Rspacefs.Lib.Cursor

/-!
# Reading a changing list page by page

A reader takes a strictly sorted list page by page and remembers how many elements it has
taken. The list may change between the pages, so the position at which the reader goes on
need not be behind the last element it took. Where it is, the pages miss nothing and
repeat nothing.

## Main definitions

* `Lib.passed` — an element is not behind the last one that was taken

## Main results

* `mem_take_iff_passed` — the elements that were passed stand in front
* `count_page` — a page that goes on behind the last element has each of the others once
-/

namespace Rspacefs.Lib

open Std

variable {α : Type*} {l : List α} {a last : α} {b : Option α} {j k : Nat}

theorem lt_of_mem_take_of_mem_drop [LT α] {x y : α} (hl : l.Pairwise (· < ·)) (hx : x ∈ l.take j)
    (hy : y ∈ l.drop j) : x < y := by
  rw [← List.take_append_drop j l, List.pairwise_append] at hl
  exact hl.2.2 x hx y hy

variable [LE α] [DecidableLE α]

/-- The element is not behind the last one that was taken, if one was. -/
def passed (b : Option α) (a : α) : Bool := b.any fun last => decide (a ≤ last)

@[simp] theorem passed_none : passed none a = false := rfl

@[simp] theorem passed_some : passed (some last) a = true ↔ a ≤ last := by simp [passed]

variable [IsLinearOrder α]

theorem passed_of_le {a' : α} (h : passed b a = true) (hle : a' ≤ a) : passed b a' = true := by
  cases b with
  | none => exact h
  | some last => exact passed_some.mpr (le_trans hle (passed_some.mp h))

variable [LT α] [LawfulOrderLT α]

/-- The elements that were passed are those in front. -/
theorem mem_take_iff_passed (hl : l.Pairwise (· < ·)) (ha : a ∈ l) :
    a ∈ l.take (l.countP (passed b)) ↔ passed b a = true := by
  induction l with
  | nil => cases ha
  | cons x l ih =>
    obtain ⟨hx, hl⟩ := List.pairwise_cons.mp hl
    by_cases hpassed : passed b x = true
    · rw [List.countP_cons_of_pos hpassed, List.take_succ_cons, List.mem_cons]
      rcases List.mem_cons.mp ha with rfl | ha
      · simp [hpassed]
      · rw [ih hl ha, or_iff_right (ne_of_lt (hx a ha)).symm]
    · -- nothing behind an element that was not passed was passed
      have hnone : ∀ y ∈ x :: l, ¬ passed b y = true := by
        intro y hy h
        rcases List.mem_cons.mp hy with rfl | hy
        · exact hpassed h
        · exact hpassed (passed_of_le h (le_of_lt (hx y hy)))
      rw [List.countP_eq_zero.mpr hnone]
      simp [hnone a ha]

/-- A page that goes on behind the last element that was taken: what was passed before is
not in it, and what is passed after it and was not before is in it once. -/
theorem count_page [BEq α] [LawfulBEq α] (hl : l.Pairwise (· < ·)) (ha : a ∈ l)
    (hj : l.countP (passed b) = j) :
    (if passed b a then 1 else 0) + (slice l j k).count a =
      if passed ((slice l j k).getLast?.or b) a then 1 else 0 := by
  have hfront := mem_take_iff_passed (b := b) hl ha
  rw [hj] at hfront
  have hpage : (slice l j k).Pairwise (· < ·) := (hl.drop).take
  by_cases hpassed : passed b a = true
  · -- everything in the page is behind the element
    have hlt : ∀ y ∈ slice l j k, a < y := fun y hy =>
      lt_of_mem_take_of_mem_drop hl (hfront.mpr hpassed) (List.mem_of_mem_take hy)
    have hnot : a ∉ slice l j k := fun h => lt_irrefl (hlt a h)
    rw [if_pos hpassed, List.count_eq_zero_of_not_mem hnot, if_pos]
    cases hlast : (slice l j k).getLast? with
    | none => exact hpassed
    | some last => exact passed_some.mpr (le_of_lt (hlt last (List.mem_of_getLast? hlast)))
  · have hrest : a ∈ l.drop j := by
      rw [← List.take_append_drop j l, List.mem_append] at ha
      exact ha.resolve_left fun h => hpassed (hfront.mp h)
    have hnodup : (slice l j k).Nodup := hpage.imp fun h => Std.ne_of_lt h
    rw [if_neg hpassed, Nat.zero_add, hnodup.count]
    cases hlast : (slice l j k).getLast? with
    | none =>
      rw [List.getLast?_eq_none_iff] at hlast
      simp [hlast, hpassed]
    | some last =>
      obtain ⟨front, hfrontLast⟩ := List.getLast?_eq_some_iff.mp hlast
      congr 1
      rw [eq_iff_iff, Option.some_or, passed_some]
      constructor
      · intro h
        rw [hfrontLast] at h hpage
        rcases List.mem_append.mp h with h | h
        · exact le_of_lt ((List.pairwise_append.mp hpage).2.2 a h last (by simp))
        · exact le_of_eq (List.mem_singleton.mp h)
      · intro hle
        by_contra hnot
        -- behind the page everything is behind its last element
        rw [← List.take_append_drop k (l.drop j), List.mem_append] at hrest
        exact not_lt_of_ge hle (lt_of_mem_take_of_mem_drop hl.drop (List.mem_of_getLast? hlast)
          (hrest.resolve_left hnot))

end Rspacefs.Lib
