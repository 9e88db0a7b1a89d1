import Mathlib.Data.List.Induction
import Mathlib.Order.Basic

/-!
# Going round and round a list

A walk that follows `t`, and from where that led follows `t` again, passes the prefixes of `t`,
of `t ++ t`, and so on. Of the other lists, those matter here that leave this way at a smaller
letter: at each step they come before the next one on the way.

## Main definitions

* `Lib.OnTheWay` — a list is a prefix of `t` often enough repeated
* `Lib.BesideWay` — a list leaves the way at a smaller letter
* `Lib.MetAt` — the step of the walk at which a list is met

## Main results

* `exists_onTheWay_concat`, `OnTheWay.next_unique` — the way goes on, and does not branch
* `MetAt.drop` — what is met behind `t` was met once before, `t.length` steps earlier
* `MetAt.not_isPrefix` — what was met earlier is not ahead
-/

namespace Rspacefs.Lib

variable {α : Type*} {t w w' q r : List α} {n m : α} {k : Nat}

/-- The list is on the way: a prefix of `t`, of `t ++ t`, and so on. -/
def OnTheWay (t w : List α) : Prop := w <+: t ++ w

theorem onTheWay_nil : OnTheWay t [] := List.nil_prefix

@[simp] theorem onTheWay_append_iff : OnTheWay t (t ++ w) ↔ OnTheWay t w :=
  List.prefix_append_right_inj t

/-- The way leads on. -/
theorem exists_onTheWay_concat (ht : t ≠ []) (h : OnTheWay t w) :
    ∃ n, OnTheWay t (w ++ [n]) := by
  obtain ⟨rest, hrest⟩ := h
  have hne : rest ≠ [] := by
    rintro rfl
    apply ht
    simpa using congrArg List.length hrest
  obtain ⟨n, rest, rfl⟩ := List.exists_cons_of_ne_nil hne
  refine ⟨n, ⟨rest ++ [n], ?_⟩⟩
  rw [← List.append_assoc t, ← hrest]
  simp

namespace OnTheWay

theorem of_isPrefix (h : OnTheWay t w) (hq : q <+: w) : OnTheWay t q := by
  apply List.prefix_of_prefix_length_le (hq.trans h)
  · exact (List.prefix_append_right_inj t).mpr hq
  · simp

theorem isPrefix_of_le (h : OnTheWay t w) (hle : t.length ≤ w.length) : t <+: w :=
  List.prefix_of_prefix_length_le (List.prefix_append t w) h hle

theorem isPrefix_of_ge (h : OnTheWay t w) (hle : w.length ≤ t.length) : w <+: t :=
  List.prefix_of_prefix_length_le h (List.prefix_append t w) hle

/-- The next step is behind what was passed. -/
theorem isPrefix_of_concat (ht : t ≠ []) (h : OnTheWay t (w ++ [n])) : w ++ [n] <+: t ++ w := by
  apply List.prefix_of_prefix_length_le h
  · exact (List.prefix_append_right_inj t).mpr (List.prefix_append w [n])
  · have := List.length_pos_iff.mpr ht
    simp only [List.length_append, List.length_cons, List.length_nil]
    omega

theorem next_unique (ht : t ≠ []) (h : OnTheWay t (w ++ [n])) (h' : OnTheWay t (w ++ [m])) :
    n = m := by
  have hsame := List.prefix_of_prefix_length_le (h.isPrefix_of_concat ht) (h'.isPrefix_of_concat ht)
    (by simp)
  rw [List.prefix_append_right_inj] at hsame
  simpa using hsame

/-- Only letters of `t` are on the way. -/
theorem mem_of_mem (ht : t ≠ []) (h : OnTheWay t w) (hn : n ∈ w) : n ∈ t := by
  induction w using List.reverseRecOn with
  | nil => cases hn
  | append_singleton w m ih =>
    have hw := h.of_isPrefix (List.prefix_append w [m])
    rcases List.mem_append.mp hn with hn | hn
    · exact ih hw hn
    · have hall := (h.isPrefix_of_concat ht).subset (List.mem_append_right w hn)
      exact (List.mem_append.mp hall).elim id (ih hw)

/-- There is one way. -/
theorem isPrefix_of_length_le (ht : t ≠ []) (h : OnTheWay t w) (h' : OnTheWay t w')
    (hle : w.length ≤ w'.length) : w <+: w' := by
  induction w using List.reverseRecOn with
  | nil => exact List.nil_prefix
  | append_singleton w n ih =>
    rw [List.length_append, List.length_singleton] at hle
    obtain ⟨rest, rfl⟩ := ih (h.of_isPrefix (List.prefix_append w [n])) (by omega)
    have hne : rest ≠ [] := by
      rintro rfl
      rw [List.append_nil] at hle
      omega
    obtain ⟨m, rest, rfl⟩ := List.exists_cons_of_ne_nil hne
    have hpre : w ++ [m] <+: w ++ m :: rest :=
      (List.prefix_append_right_inj w).mpr (List.prefix_append [m] rest)
    rwa [h.next_unique ht (h'.of_isPrefix hpre)]

end OnTheWay

/-! ### Turns -/

variable [LT α]

/-- The list leaves the way at `w`, at a letter smaller than the next one. -/
def BesideWay (t w r : List α) : Prop :=
  ∃ n m rest, OnTheWay t (w ++ [n]) ∧ m < n ∧ r = w ++ m :: rest

/-- The list is met at the `k`-th step: it is where the way has got to, or leaves it there. -/
def MetAt (t : List α) (k : Nat) (r : List α) : Prop :=
  OnTheWay t r ∧ r.length = k ∨ ∃ w, w.length = k ∧ BesideWay t w r

theorem BesideWay.append (h : BesideWay t w r) (q : List α) : BesideWay t w (r ++ q) := by
  obtain ⟨n, m, rest, hway, hlt, rfl⟩ := h
  exact ⟨n, m, rest ++ q, hway, hlt, by simp⟩

variable [Std.Irrefl (α := α) (· < ·)]

/-- What is met behind `t` was met before. -/
theorem MetAt.drop (h : MetAt t k (t ++ r)) : ∃ j, j + t.length = k ∧ MetAt t j r := by
  rcases h with ⟨hway, rfl⟩ | ⟨w, rfl, n, m, rest, hway, hlt, heq⟩
  · refine ⟨r.length, ?_, Or.inl ⟨onTheWay_append_iff.mp hway, rfl⟩⟩
    rw [List.length_append, Nat.add_comm]
  · by_cases hle : t.length ≤ w.length
    · obtain ⟨w, rfl⟩ :=
        (hway.of_isPrefix (List.prefix_append w [n])).isPrefix_of_le hle
      rw [List.append_assoc, List.append_cancel_left_eq] at heq
      rw [List.append_assoc, onTheWay_append_iff] at hway
      refine ⟨w.length, ?_, Or.inr ⟨w, rfl, n, m, rest, hway, hlt, heq⟩⟩
      rw [List.length_append, Nat.add_comm]
    · -- then `t` takes the way where the list leaves it
      have hpre : w ++ [n] <+: t := hway.isPrefix_of_ge (by simp; omega)
      have hboth := hpre.trans (List.prefix_append t r)
      rw [heq, List.prefix_append_right_inj, List.cons_prefix_cons] at hboth
      rw [hboth.1] at hlt
      exact absurd hlt (Std.Irrefl.irrefl _)

/-- What was met earlier is not ahead. -/
theorem MetAt.not_isPrefix (ht : t ≠ []) (h : MetAt t k r) (hw : OnTheWay t w) (hlt : k < w.length) :
    ¬ w <+: r := by
  intro hpre
  rcases h with ⟨-, rfl⟩ | ⟨w', rfl, n, m, rest, hway, hmn, rfl⟩
  · have := hpre.length_le
    omega
  · have hnext : w' ++ [n] <+: w := hway.isPrefix_of_length_le ht hw (by simpa using Nat.succ_le_of_lt hlt)
    have hboth := hnext.trans hpre
    rw [List.prefix_append_right_inj, List.cons_prefix_cons] at hboth
    rw [hboth.1] at hmn
    exact Std.Irrefl.irrefl _ hmn

end Rspacefs.Lib
