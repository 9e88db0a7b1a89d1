import Mathlib.Logic.Function.Basic

/-!
# Memo tables

A memo table keeps values of a function that were computed before. A look-up gives the
stored value, or else the value of the function, which is then stored. If the function
has changed since, the table still gives what it has.

## Main definitions

* `Lib.Memo`, `Lib.Memo.get`, `Lib.Memo.fill` — tables, look-ups and insertions
* `Lib.Memo.Extends` — a table that got more entries, all of them present values
* `Lib.Memo.SoundAt`, `Lib.Memo.Sound` — one entry, or all of them, are present values

## Main results

* `Memo.Extends.get_eq` — look-ups give the same before and after more entries
* `Memo.Sound.get_eq` — over a sound table a look-up gives the value of the function
-/

namespace Rspacefs.Lib

/-- A table of values computed before. -/
abbrev Memo (κ β : Type*) := κ → Option β

namespace Memo

variable {κ β : Type*} {f : κ → β} {m m' m'' : Memo κ β} {k : κ}

/-- What a look-up gives. -/
def get (m : Memo κ β) (f : κ → β) (k : κ) : β := (m k).getD (f k)

/-- The table after a look-up. -/
def fill [DecidableEq κ] (m : Memo κ β) (f : κ → β) (k : κ) : Memo κ β :=
  if (m k).isSome then m else Function.update m k (some (f k))

/-- More entries, all of them present values. -/
def Extends (f : κ → β) (m m' : Memo κ β) : Prop :=
  ∀ k, m' k = m k ∨ m k = none ∧ m' k = some (f k)

theorem Extends.refl (f : κ → β) (m : Memo κ β) : Extends f m m := fun _ => Or.inl rfl

/-- Look-ups give the same before and after more entries. -/
theorem Extends.get_eq (h : Extends f m m') (k : κ) : m'.get f k = m.get f k := by
  unfold Memo.get
  rcases h k with heq | ⟨hnone, hsome⟩
  · rw [heq]
  · rw [hnone, hsome]
    rfl

theorem Extends.fill [DecidableEq κ] (h : Extends f m m') (k : κ) :
    Extends f m (m'.fill f k) := by
  unfold Memo.fill
  split
  · exact h
  · rename_i hnone
    have hnone' : m' k = none := by simpa using hnone
    intro j
    by_cases hj : j = k
    · subst hj
      rw [Function.update_self]
      rcases h j with heq | ⟨-, hsome⟩
      · exact Or.inr ⟨heq.symm.trans hnone', rfl⟩
      · rw [hnone'] at hsome
        cases hsome
    · rw [Function.update_of_ne hj]
      exact h j

/-- The entry for `k`, if there is one, is a present value. -/
def SoundAt (f : κ → β) (m : Memo κ β) (k : κ) : Prop := ∀ b, m k = some b → b = f k

/-- A sound entry gives the value of the function. -/
theorem SoundAt.get_eq (h : SoundAt f m k) : m.get f k = f k := by
  unfold Memo.get
  cases hk : m k with
  | none => rfl
  | some b => exact h b hk

/-- All entries are present values. -/
def Sound (f : κ → β) (m : Memo κ β) : Prop := ∀ k, SoundAt f m k

theorem sound_empty (f : κ → β) : Sound f (fun _ => none) := fun _ _ h => nomatch h

/-- Over a sound table a look-up gives the value of the function. -/
theorem Sound.get_eq (h : Sound f m) (k : κ) : m.get f k = f k := (h k).get_eq

theorem Sound.extends (h : Sound f m) (hm : Extends f m m') : Sound f m' := by
  intro k b hb
  rcases hm k with heq | ⟨-, hsome⟩
  · exact h k b (heq ▸ hb)
  · exact Option.some.inj (hb.symm.trans hsome)

end Memo

end Rspacefs.Lib
