import Mathlib.Data.Option.Basic
import Mathlib.Logic.Function.Basic

/-!
# Interning tables

Keys are numbered on demand: one table leads from numbers to keys, another one back,
and a counter gives out the numbers. A key can be taken out, and a number can be moved
to another key. The two tables stay inverse to each other as long as no number is moved
to a key that has a number of its own.

## Main definitions

* `Lib.Interned` — the two tables and the counter
* `Interned.intern`, `Interned.unbind`, `Interned.rebind` — the operations
* `Interned.Inverse` — the tables are inverse to each other

## Main results

* `Inverse.intern`, `Inverse.unbind` — these keep the tables inverse
* `Inverse.rebind_iff` — moving a number does, exactly when the new key is free
-/

namespace Rspacefs.Lib

variable {κ : Type} [DecidableEq κ]

/-- Keys by number, numbers by key, and the next number. -/
structure Interned (κ : Type) where
  key : Nat → Option κ
  number : κ → Option Nat
  next : Nat

namespace Interned

/-- Number a key, unless it has a number. -/
def intern (t : Interned κ) (k : κ) : Interned κ :=
  match t.number k with
  | some _ => t
  | none =>
    { key := Function.update t.key t.next (some k)
      number := Function.update t.number k (some t.next)
      next := t.next + 1 }

/-- Take a key out. -/
def unbind (t : Interned κ) (k : κ) : Interned κ :=
  match t.number k with
  | some i => { t with
      number := Function.update t.number k none
      key := Function.update t.key i none }
  | none => t

/-- Move the number of one key to another. -/
def rebind (t : Interned κ) (src dst : κ) : Interned κ :=
  match t.number src with
  | some i => { t with
      key := Function.update t.key i (some dst)
      number := Function.update (Function.update t.number src none) dst (some i) }
  | none => t

/-- Each table is the inverse of the other, and the next number is free. -/
structure Inverse (t : Interned κ) : Prop where
  inverse : ∀ i k, t.key i = some k ↔ t.number k = some i
  below : ∀ i k, t.key i = some k → i < t.next

variable {t : Interned κ} {i j : Nat} {k src dst : κ}

/-! ### Numbering -/

/-- A number that was given out keeps its key. -/
theorem key_intern (hi : i < t.next) : (t.intern k).key i = t.key i := by
  unfold intern
  cases t.number k with
  | some j => rfl
  | none => exact Function.update_of_ne (Nat.ne_of_lt hi) _ _

theorem le_next_intern : t.next ≤ (t.intern k).next := by
  unfold intern
  cases t.number k with
  | some j => exact Nat.le_refl _
  | none => exact Nat.le_succ _

theorem Inverse.intern (h : Inverse t) (k : κ) : Inverse (t.intern k) := by
  unfold Interned.intern
  cases hk : t.number k with
  | some j => exact h
  | none =>
    have hfree : ∀ l, t.number l ≠ some t.next := fun l hl =>
      Nat.lt_irrefl _ (h.below _ l ((h.inverse _ l).mpr hl))
    refine ⟨fun i l => ?_, fun i l hl => ?_⟩ <;> dsimp only at *
    · -- the new pair, the two halves of it, and the old pairs
      by_cases hi : i = t.next <;> by_cases hl : l = k
      · simp [hi, hl]
      · rw [hi, Function.update_self, Function.update_of_ne hl, Option.some.injEq]
        exact ⟨fun h => absurd h.symm hl, fun h => absurd h (hfree l)⟩
      · rw [hl, Function.update_of_ne hi, Function.update_self, h.inverse, hk, Option.some.injEq]
        exact iff_of_false (fun h => by cases h) fun h => hi h.symm
      · rw [Function.update_of_ne hi, Function.update_of_ne hl, h.inverse]
    · by_cases hi : i = t.next
      · exact hi ▸ Nat.lt_succ_self _
      · rw [Function.update_of_ne hi] at hl
        exact Nat.lt_succ_of_lt (h.below i l hl)

/-- Numbering a key gives no other key a number. -/
theorem number_intern_ne_none {l : κ} (h : (t.intern k).number l ≠ none) :
    l = k ∨ t.number l ≠ none := by
  unfold intern at h
  cases hk : t.number k with
  | some j =>
    rw [hk] at h
    exact Or.inr h
  | none =>
    rw [hk] at h
    by_cases hl : l = k
    · exact Or.inl hl
    · dsimp only at h
      rw [Function.update_of_ne hl] at h
      exact Or.inr h

/-! ### Taking a key out -/

@[simp] theorem next_unbind : (t.unbind k).next = t.next := by
  unfold unbind
  cases t.number k <;> rfl

/-- Taking a key out gives no number a key. -/
theorem key_unbind (h : (t.unbind k).key i = some dst) : t.key i = some dst := by
  unfold unbind at h
  cases hk : t.number k with
  | none =>
    rw [hk] at h
    exact h
  | some j =>
    rw [hk] at h
    dsimp only at h
    by_cases hi : i = j
    · simp [hi] at h
    · rwa [Function.update_of_ne hi] at h

theorem Inverse.key_unbind_of_ne (h : Inverse t) (hi : t.key i = some src) (hne : src ≠ k) :
    (t.unbind k).key i = some src := by
  unfold Interned.unbind
  cases hk : t.number k with
  | none => exact hi
  | some j =>
    have hij : i ≠ j := by
      rintro rfl
      exact hne (Option.some.inj (hi.symm.trans ((h.inverse i k).mpr hk)))
    exact (Function.update_of_ne hij _ _).trans hi

/-- A key that has a number behind the taking out had it before, and is another one. -/
theorem number_unbind_ne_none {l : κ} (h : (t.unbind k).number l ≠ none) :
    l ≠ k ∧ t.number l ≠ none := by
  unfold Interned.unbind at h
  cases hk : t.number k with
  | none =>
    rw [hk] at h
    refine ⟨?_, h⟩
    rintro rfl
    exact h hk
  | some j =>
    rw [hk] at h
    dsimp only at h
    by_cases hl : l = k
    · rw [hl, Function.update_self] at h
      exact absurd rfl h
    · rw [Function.update_of_ne hl] at h
      exact ⟨hl, h⟩

theorem Inverse.unbind (h : Inverse t) (k : κ) : Inverse (t.unbind k) := by
  refine ⟨fun i l => ?_, fun i l hl => ?_⟩
  · unfold Interned.unbind
    cases hk : t.number k with
    | none => exact h.inverse i l
    | some j =>
      dsimp only
      by_cases hi : i = j <;> by_cases hl : l = k
      · simp [hi, hl]
      · rw [hi, Function.update_self, Function.update_of_ne hl, ← h.inverse,
          (h.inverse j k).mpr hk, Option.some.injEq]
        exact iff_of_false (fun h => by cases h) fun h => hl h.symm
      · rw [hl, Function.update_of_ne hi, Function.update_self, h.inverse, hk, Option.some.injEq]
        exact iff_of_false (fun h => hi h.symm) fun h => by cases h
      · rw [Function.update_of_ne hi, Function.update_of_ne hl, h.inverse]
  · rw [next_unbind]
    exact h.below i l (key_unbind hl)

/-! ### Moving a number -/

@[simp] theorem next_rebind : (t.rebind src dst).next = t.next := by
  unfold rebind
  cases t.number src <;> rfl

/-- Only the number of the old key moves, and it moves to the new one. -/
theorem key_rebind : (t.rebind src dst).key i =
    if t.number src = some i then some dst else t.key i := by
  unfold rebind
  cases hsrc : t.number src with
  | none => simp
  | some j =>
    by_cases hij : j = i
    · simp [hij]
    · have hne : i ≠ j := fun h => hij h.symm
      rw [if_neg (by simpa using hij)]
      exact Function.update_of_ne hne _ _

theorem number_rebind (hsrc : t.number src = some j) : (t.rebind src dst).number k =
    if k = dst then some j else if k = src then none else t.number k := by
  unfold rebind
  rw [hsrc]
  dsimp only
  by_cases hk : k = dst
  · simp [hk]
  · rw [if_neg hk, Function.update_of_ne hk]
    by_cases hk' : k = src
    · simp [hk']
    · rw [if_neg hk', Function.update_of_ne hk']

/-- Where the new key has no number, it gets the one of the old key, if that has one. -/
theorem number_rebind_of_free (hdst : t.number dst = none) : (t.rebind src dst).number k =
    if k = dst then t.number src else if k = src then none else t.number k := by
  cases hsrc : t.number src with
  | some j => exact number_rebind hsrc
  | none =>
    have hsame : t.rebind src dst = t := by
      unfold Interned.rebind
      rw [hsrc]
    rw [hsame]
    split
    · rename_i hk
      rw [hk, hdst]
    · split
      · rename_i hk
        rw [hk, hsrc]
      · rfl

/-- Moving a number keeps the tables inverse exactly when its new key is free. -/
theorem Inverse.rebind_iff (h : Inverse t) (hne : src ≠ dst) :
    Inverse (t.rebind src dst) ↔ ((t.number src).isSome → t.number dst = none) := by
  cases hsrc : t.number src with
  | none =>
    have hsame : t.rebind src dst = t := by
      unfold Interned.rebind
      rw [hsrc]
    rw [hsame]
    exact iff_of_true h fun hnone => by cases hnone
  | some j =>
    constructor
    · intro h' _
      cases hdst : t.number dst with
      | none => rfl
      | some i =>
        -- the number that `dst` had still has the key `dst`
        have hij : j ≠ i := by
          rintro rfl
          exact hne (Option.some.inj (((h.inverse j src).mpr hsrc).symm.trans
            ((h.inverse j dst).mpr hdst)))
        have hkey : (t.rebind src dst).key i = some dst := by
          rw [key_rebind, hsrc, if_neg (by simpa using hij), (h.inverse i dst).mpr hdst]
        have hnumber := (h'.inverse i dst).mp hkey
        rw [number_rebind hsrc, if_pos rfl] at hnumber
        exact absurd (Option.some.inj hnumber) hij
    · intro hfree
      have hdst : t.number dst = none := hfree rfl
      refine ⟨fun i l => ?_, fun i l hl => ?_⟩
      · rw [key_rebind, number_rebind hsrc, hsrc]
        by_cases hi : j = i
        · rw [if_pos (congrArg some hi), Option.some.injEq]
          by_cases hl : l = dst
          · simp [hl, hi]
          · rw [if_neg hl]
            refine iff_of_false (fun h => hl h.symm) ?_
            split
            · exact fun h => by cases h
            · rename_i hls
              intro hl'
              rw [← h.inverse, ← hi, (h.inverse j src).mpr hsrc, Option.some.injEq] at hl'
              exact hls hl'.symm
        · rw [if_neg (by simpa using hi), h.inverse]
          by_cases hl : l = dst
          · rw [if_pos hl, hl, hdst, Option.some.injEq]
            exact iff_of_false (fun h => by cases h) hi
          · rw [if_neg hl]
            split
            · rename_i hls
              rw [hls, hsrc, Option.some.injEq]
              exact iff_of_false hi fun h => by cases h
            · exact Iff.rfl
      · rw [next_rebind]
        rw [key_rebind] at hl
        split at hl
        · rename_i hi
          exact h.below i src ((h.inverse i src).mpr hi)
        · exact h.below i l hl

end Interned

end Rspacefs.Lib
