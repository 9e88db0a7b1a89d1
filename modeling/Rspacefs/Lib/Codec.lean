import Mathlib.Algebra.Group.Nat.Defs
import Mathlib.Data.Nat.Digits.Defs

/-!
# Fixed-width codes

Numbers as digits of a fixed count, least significant first, and lists as pieces of a fixed
length. Each is read back from the other.

## Main definitions

* `Lib.digitsOf` — the first digits of a number
* `Lib.piece` — one piece of a list that is cut into pieces of the same length

## Main results

* `ofDigits_digitsOf`, `digitsOf_ofDigits` — numbers and digits
* `piece_flatMap`, `flatMap_piece` — lists and pieces
* `append_cons_inj` — lists cut at their last separator
* `mapM_eq_some_iff` — decoding a list, item by item
-/

namespace Rspacefs.Lib

variable {α β γ : Type} {b k n w i : Nat}

/-- The first `k` digits of `n` in base `b`. -/
def digitsOf (b k n : Nat) : List Nat := (List.range k).map fun i => n / b ^ i % b

@[simp] theorem length_digitsOf (b k n : Nat) : (digitsOf b k n).length = k := by
  simp [digitsOf]

theorem lt_of_mem_digitsOf (hb : 0 < b) {d : Nat} (h : d ∈ digitsOf b k n) : d < b := by
  obtain ⟨i, -, rfl⟩ := List.mem_map.mp h
  exact Nat.mod_lt _ hb

theorem ofDigits_digitsOf (b k n : Nat) : Nat.ofDigits b (digitsOf b k n) = n % b ^ k := by
  induction k with
  | zero => simp [digitsOf, Nat.mod_one]
  | succ k ih =>
    have hsplit : digitsOf b (k + 1) n = digitsOf b k n ++ [n / b ^ k % b] := by
      rw [digitsOf, List.range_succ, List.map_append]
      rfl
    rw [hsplit, Nat.ofDigits_append, ih, length_digitsOf, Nat.ofDigits_singleton, Nat.mod_pow_succ]

theorem digitsOf_ofDigits {l : List Nat} (hb : 1 < b) (hl : ∀ d ∈ l, d < b) :
    digitsOf b l.length (Nat.ofDigits b l) = l := by
  refine Nat.ofDigits_inj_of_len_eq hb (length_digitsOf _ _ _)
    (fun d hd => lt_of_mem_digitsOf (Nat.zero_lt_of_lt hb) hd) hl ?_
  rw [ofDigits_digitsOf, Nat.mod_eq_of_lt (Nat.ofDigits_lt_base_pow_length hb hl)]

/-- The `i`-th piece of length `w`. -/
def piece (w : Nat) (l : List α) (i : Nat) : List α := (l.drop (i * w)).take w

theorem piece_flatMap {f : α → List β} (hf : ∀ a, (f a).length = w) {l : List α}
    (hi : i < l.length) : piece w (l.flatMap f) i = f l[i] := by
  induction l generalizing i with
  | nil => simp at hi
  | cons a l ih =>
    rw [List.flatMap_cons]
    cases i with
    | zero => rw [piece, Nat.zero_mul, List.drop_zero, List.take_left' (hf a), List.getElem_cons_zero]
    | succ i =>
      have hdrop : (i + 1) * w = (f a).length + i * w := by
        rw [hf a, Nat.add_mul, Nat.one_mul, Nat.add_comm]
      rw [piece, hdrop, List.drop_length_add_append, List.getElem_cons_succ]
      exact ih (by simpa using hi)

theorem flatMap_piece {l : List α} (hl : l.length = n * w) :
    (List.range n).flatMap (piece w l) = l := by
  induction n generalizing l with
  | zero =>
    rw [Nat.zero_mul, List.length_eq_zero_iff] at hl
    rw [hl]
    rfl
  | succ n ih =>
    have hshift : ∀ i, piece w l (i + 1) = piece w (l.drop w) i := by
      intro i
      rw [piece, piece, List.drop_drop, Nat.add_mul, Nat.one_mul, Nat.add_comm]
    have hfirst : piece w l 0 = l.take w := by rw [piece, Nat.zero_mul, List.drop_zero]
    rw [List.range_succ_eq_map, List.flatMap_cons, List.flatMap_map, hfirst]
    simp only [Nat.succ_eq_add_one, hshift]
    rw [ih (by rw [List.length_drop, hl, Nat.add_mul, Nat.one_mul, Nat.add_sub_cancel]),
      List.take_append_drop]

/-- Lists of whole pieces are equal when their pieces are. -/
theorem eq_of_piece_eq {l l' : List α} (hl : l.length = n * w) (hl' : l'.length = n * w)
    (h : ∀ i < n, piece w l i = piece w l' i) : l = l' := by
  have hpieces : (List.range n).map (piece w l) = (List.range n).map (piece w l') := by
    apply List.map_congr_left
    intro i hi
    exact h i (List.mem_range.mp hi)
  rw [← flatMap_piece hl, ← flatMap_piece hl', List.flatMap_def, List.flatMap_def, hpieces]

/-- A list is cut at the last of a kind of item. -/
theorem append_cons_inj {a b a' b' : List α} {x : α} (hb : x ∉ b) (hb' : x ∉ b')
    (h : a ++ x :: b = a' ++ x :: b') : a = a' ∧ b = b' := by
  rcases List.append_eq_append_iff.mp h with ⟨mid, rfl, hmid⟩ | ⟨mid, rfl, hmid⟩
  · cases mid with
    | nil =>
      rw [List.nil_append] at hmid
      exact ⟨(List.append_nil a).symm, (List.cons.inj hmid).2⟩
    | cons y mid =>
      rw [List.cons_append] at hmid
      refine absurd ?_ hb
      rw [(List.cons.inj hmid).2]
      simp
  · cases mid with
    | nil =>
      rw [List.nil_append] at hmid
      exact ⟨List.append_nil a', (List.cons.inj hmid).2.symm⟩
    | cons y mid =>
      rw [List.cons_append] at hmid
      refine absurd ?_ hb'
      rw [(List.cons.inj hmid).2]
      simp

theorem length_of_mapM {f : α → Option β} {l : List α} {l' : List β} (h : l.mapM f = some l') :
    l'.length = l.length := by
  induction l generalizing l' with
  | nil =>
    cases h
    rfl
  | cons a l ih =>
    rw [List.mapM_cons] at h
    obtain ⟨b, -, h⟩ := Option.bind_eq_some_iff.mp h
    obtain ⟨bs, hbs, h⟩ := Option.bind_eq_some_iff.mp h
    cases h
    rw [List.length_cons, List.length_cons, ih hbs]

/-- Decoding item by item, where each item is decoded by comparing codes. -/
theorem mapM_eq_some_iff {f : α → Option β} {g : α → γ} {h : β → γ}
    (hf : ∀ a c, f a = some c ↔ g a = h c) {l : List α} {l' : List β} :
    l.mapM f = some l' ↔ l.map g = l'.map h := by
  induction l generalizing l' with
  | nil => cases l' <;> simp
  | cons a l ih =>
    rw [List.mapM_cons, Option.bind_eq_bind, Option.bind_eq_some_iff]
    cases l' with
    | nil => simp [Option.bind_eq_some_iff]
    | cons b l' =>
      rw [List.map_cons, List.map_cons, List.cons.injEq, ← hf, ← ih]
      constructor
      · rintro ⟨c, hc, hrest⟩
        obtain ⟨cs, hcs, heq⟩ := Option.bind_eq_some_iff.mp hrest
        cases heq
        exact ⟨hc, hcs⟩
      · rintro ⟨hc, hcs⟩
        exact ⟨b, hc, Option.bind_eq_some_iff.mpr ⟨l', hcs, rfl⟩⟩

/-- A number is read back from its decimal text. -/
theorem toDigits_injective {n n' : Nat} (h : Nat.toDigits 10 n = Nat.toDigits 10 n') : n = n' := by
  rw [← Nat.ofDigitChars_toDigits (b := 10) (n := n) (by decide) (by decide), h,
    Nat.ofDigitChars_toDigits (by decide) (by decide)]

end Rspacefs.Lib
