import Rspacefs.Verity.Reader

/-!
# The arithmetic of a seek

`seek` of `VerifiedReader` in `rspacefs-verity/src/verity.rs` casts a position or a size to
`i64` before it adds the offset, so a position from `2 ^ 63` on counts as negative. The `read`
of `rspacefs-fuse/src/fs.rs` casts its own offset the other way and leaves it to `seek`.

## Main definitions

* `converted`, `added` — what is cast, and what is added to it
* `SeeksExactly` — the seek leads to its target if that is a `u64`, and fails otherwise
* `NoWrap` — the cast and the sum are exact

## Main results

* `newPos_eq_ite` — the sum overflows if it crosses `2 ^ 63`, and leads below it in any case
* `seek_exact_iff` — which seeks are exact
-/

namespace Rspacefs.VerifiedReader

open Lib MerkleTree

/-- The values that the fields of a `SeekFrom` can have. -/
def WellTyped : SeekFrom → Prop
  | .start p => p < 2 ^ 64
  | .fromEnd d | .current d => -2 ^ 63 ≤ d ∧ d < 2 ^ 63

/-- What `seek` casts to `i64`. -/
def converted (r : VerifiedReader) : SeekFrom → Nat
  | .start p => p
  | .fromEnd _ => r.entry.size
  | .current _ => r.position

/-- What is added to it. -/
def added : SeekFrom → Int
  | .start _ => 0
  | .fromEnd d | .current d => d

/-- The mathematical target of a seek. -/
def target (r : VerifiedReader) (pos : SeekFrom) : Int := pos.target r.entry.size r.position

/-- The seek leads to its target if that is a `u64`, and otherwise returns an error and leaves
the reader as it was. -/
def SeeksExactly (checks : Bool) (r : VerifiedReader) (pos : SeekFrom) : Prop :=
  (0 ≤ target r pos ∧ target r pos < 2 ^ 64 →
    (seek checks pos).run r = .ok (target r pos).toNat
      { r with position := (target r pos).toNat }) ∧
  (¬ (0 ≤ target r pos ∧ target r pos < 2 ^ 64) →
    ∃ e, (seek checks pos).run r = .error e r ∧ ∀ p, e ≠ .panic p)

/-- Neither the cast nor the sum wraps around or overflows. -/
def NoWrap (r : VerifiedReader) (pos : SeekFrom) : Prop :=
  asI64 (converted r pos) = converted r pos ∧
    -2 ^ 63 ≤ asI64 (converted r pos) + added pos ∧ asI64 (converted r pos) + added pos < 2 ^ 63

variable {checks : Bool} {r : VerifiedReader} {pos : SeekFrom} {n : Nat} {exact : Int}

/-! ### The sum -/

/-- Below the range of `i64` the sum misses it by `2 ^ 64`. -/
theorem bmod_of_low (hlo : -2 ^ 64 ≤ exact) (hhi : exact < -2 ^ 63) :
    Int.bmod exact (2 ^ 64) = exact + 2 ^ 64 := by
  rw [Int.bmod_def]
  split
  · omega
  · omega

theorem bmod_of_high (hlo : 2 ^ 63 ≤ exact) (hhi : exact < 2 ^ 64) :
    Int.bmod exact (2 ^ 64) = exact - 2 ^ 64 := by
  rw [Int.bmod_def]
  split
  · omega
  · omega

theorem asI64_of_ge (hlo : 2 ^ 63 ≤ n) (hhi : n < 2 ^ 64) : asI64 n = n - 2 ^ 64 :=
  bmod_of_high (by omega) (by omega)

theorem target_eq (r : VerifiedReader) (pos : SeekFrom) :
    target r pos = converted r pos + added pos := by
  cases pos with
  | start p => exact (Int.add_zero _).symm
  | fromEnd d => rfl
  | current d => rfl

/-- A start position is cast and nothing is added, which is the same sum. -/
theorem newPos_eq_sum (checks : Bool) (hconverted : converted r pos < 2 ^ 64) :
    newPos checks r pos = i64 checks (asI64 (converted r pos) + added pos) := by
  cases pos with
  | start p =>
    have hrange : -2 ^ 63 ≤ asI64 p ∧ asI64 p < 2 ^ 63 := by
      rcases Nat.lt_or_ge p (2 ^ 63) with hlt | hge
      · rw [asI64_eq hlt]
        omega
      · rw [asI64_of_ge hge hconverted]
        change p < 2 ^ 64 at hconverted
        omega
    exact ((congrArg _ (Int.add_zero _)).trans (i64_eq hrange.1 hrange.2)).symm
  | fromEnd d => rfl
  | current d => rfl

/-- The sum overflows if the target is across `2 ^ 63` from what was cast. Where no overflow is
noticed, it leads to the target below `2 ^ 63`, and misses it by `2 ^ 64` from there on. -/
theorem newPos_eq_ite (checks : Bool) (hconverted : converted r pos < 2 ^ 64)
    (hlo : -2 ^ 63 ≤ added pos) (hhi : added pos < 2 ^ 63) :
    newPos checks r pos =
      if (target r pos < 2 ^ 63 ↔ converted r pos < 2 ^ 63) ∨ checks = false then
        .ok (if target r pos < 2 ^ 63 then target r pos else target r pos - 2 ^ 64)
      else .error (.panic .overflow) := by
  rw [newPos_eq_sum checks hconverted, target_eq, i64]
  rcases Nat.lt_or_ge (converted r pos) (2 ^ 63) with hcast | hcast
  · rw [asI64_eq hcast]
    by_cases htarget : (converted r pos : Int) + added pos < 2 ^ 63
    · rw [if_pos ⟨by omega, htarget⟩, if_pos (Or.inl (iff_of_true htarget hcast)),
        if_pos htarget]
    · have hacross : ¬ ((converted r pos : Int) + added pos < 2 ^ 63 ↔ converted r pos < 2 ^ 63) :=
        fun h => htarget (h.mpr hcast)
      rw [if_neg fun h => htarget h.2, bmod_of_high (by omega) (by omega), if_neg htarget]
      simp only [hacross, false_or]
      cases checks <;> rfl
  · have hneg : ¬ converted r pos < 2 ^ 63 := Nat.not_lt.mpr hcast
    rw [asI64_of_ge hcast hconverted]
    by_cases htarget : (converted r pos : Int) + added pos < 2 ^ 63
    · -- the sum is below the range, and wraps back to the target
      have hacross : ¬ ((converted r pos : Int) + added pos < 2 ^ 63 ↔ converted r pos < 2 ^ 63) :=
        fun h => hneg (h.mp htarget)
      rw [if_neg (by omega), bmod_of_low (by omega) (by omega), if_pos htarget]
      simp only [hacross, false_or]
      rw [show (converted r pos : Int) - 2 ^ 64 + added pos + 2 ^ 64 =
        converted r pos + added pos by omega]
      cases checks <;> rfl
    · rw [if_pos (by omega), if_pos (Or.inl (iff_of_false htarget hneg)), if_neg htarget]
      exact congrArg Except.ok (by omega)

theorem WellTyped.added_range (h : WellTyped pos) : -2 ^ 63 ≤ added pos ∧ added pos < 2 ^ 63 := by
  cases pos with
  | start p => exact (by decide : -2 ^ 63 ≤ (0 : Int) ∧ (0 : Int) < 2 ^ 63)
  | fromEnd d => exact h
  | current d => exact h

theorem WellTyped.converted_lt (h : WellTyped pos) (hsize : r.entry.size < 2 ^ 64)
    (hposition : r.position < 2 ^ 64) : converted r pos < 2 ^ 64 := by
  cases pos with
  | start p => exact h
  | fromEnd d => exact hsize
  | current d => exact hposition

/-! ### Exact seeks -/

/-- The answers are exact below `2 ^ 63`, but for an overflow that is noticed. -/
theorem seeksExactly_iff (checks : Bool) (hconverted : converted r pos < 2 ^ 64)
    (hlo : -2 ^ 63 ≤ added pos) (hhi : added pos < 2 ^ 63) :
    SeeksExactly checks r pos ↔
      target r pos < 2 ^ 63 ∧ (checks = true → converted r pos < 2 ^ 63) := by
  have hrun := run_seek checks pos r
  have hsum := target_eq r pos
  rw [newPos_eq_ite checks hconverted hlo hhi] at hrun
  by_cases htarget : target r pos < 2 ^ 63
  · rw [and_iff_right htarget]
    simp only [htarget, true_iff, if_true] at hrun
    by_cases hquiet : converted r pos < 2 ^ 63 ∨ checks = false
    · rw [if_pos hquiet] at hrun
      dsimp only at hrun
      refine iff_of_true ⟨fun hu64 => ?_, fun hout => ?_⟩ fun hchecks => ?_
      · rwa [if_neg (Int.not_lt.mpr hu64.1)] at hrun
      · rw [if_pos (by omega)] at hrun
        exact ⟨_, hrun, nofun⟩
      · exact hquiet.resolve_right (by rw [hchecks]; decide)
    · -- the sum is below the range, and that is noticed
      rw [if_neg hquiet] at hrun
      obtain ⟨hcast, hchecks⟩ := not_or.mp hquiet
      refine iff_of_false (fun h => ?_) fun h => hcast (h (Bool.not_eq_false _ ▸ hchecks))
      have hok := h.1 ⟨by omega, by omega⟩
      rw [hrun] at hok
      cases hok
  · refine iff_of_false (fun h => ?_) fun h => htarget h.1
    simp only [htarget, false_iff, if_false] at hrun
    by_cases hu64 : target r pos < 2 ^ 64
    · -- the position counts as negative
      have hok := h.1 ⟨by omega, hu64⟩
      by_cases hquiet : ¬ converted r pos < 2 ^ 63 ∨ checks = false
      · rw [if_pos hquiet] at hrun
        dsimp only at hrun
        rw [if_pos (by omega), hok] at hrun
        cases hrun
      · rw [if_neg hquiet, hok] at hrun
        cases hrun
    · -- the sum leads `2 ^ 64` below the target
      obtain ⟨e, herror, -⟩ := h.2 fun h => hu64 h.2
      rw [if_pos (Or.inl (by omega))] at hrun
      dsimp only at hrun
      rw [if_neg (by omega), herror] at hrun
      cases hrun

/-- Neither the cast nor the sum wraps exactly below `2 ^ 63`. -/
theorem noWrap_iff (hconverted : converted r pos < 2 ^ 64) (hlo : -2 ^ 63 ≤ added pos) :
    NoWrap r pos ↔ converted r pos < 2 ^ 63 ∧ target r pos < 2 ^ 63 := by
  rw [target_eq, NoWrap]
  rcases Nat.lt_or_ge (converted r pos) (2 ^ 63) with hcast | hcast
  · rw [asI64_eq hcast]
    omega
  · rw [asI64_of_ge hcast hconverted]
    omega

/-- A seek is exact, with no cast and no sum that wraps, if what it casts and its target are below
`2 ^ 63`. Its answer is exact for every such target in a build where no overflow is noticed. -/
theorem seek_exact_iff (checks : Bool) (r : VerifiedReader) (pos : SeekFrom)
    (hsize : r.entry.size < 2 ^ 64) (hposition : r.position < 2 ^ 64) (hpos : WellTyped pos) :
    (SeeksExactly checks r pos ∧ NoWrap r pos ↔
        converted r pos < 2 ^ 63 ∧ target r pos < 2 ^ 63) ∧
      (SeeksExactly checks r pos ↔
        target r pos < 2 ^ 63 ∧ (checks = true → converted r pos < 2 ^ 63)) := by
  have hconverted := hpos.converted_lt hsize hposition
  obtain ⟨hlo, hhi⟩ := hpos.added_range
  have hexact := seeksExactly_iff checks hconverted hlo hhi
  refine ⟨?_, hexact⟩
  rw [hexact, noWrap_iff hconverted hlo]
  exact ⟨fun h => h.2, fun h => ⟨⟨h.2, fun _ => h.1⟩, h⟩⟩

/-- A reader that was just opened over the file of one byte. -/
def openedReader : VerifiedReader :=
  new ⟨⟨[secondDigest], 1, 1⟩, oneByteManifest, secondDigest, .reject⟩ oneByteEntry

/-- The last position that is below `2 ^ 63`. -/
theorem seek_exact_iff_last :
    SeeksExactly true openedReader (.current (2 ^ 63 - 1)) ∧
      NoWrap openedReader (.current (2 ^ 63 - 1)) :=
  (seek_exact_iff true openedReader (.current (2 ^ 63 - 1)) (by decide) (by decide)
    ⟨by decide, by decide⟩).1.mpr ⟨by decide, by decide⟩

/-- The next position is taken for one before the start. -/
theorem not_seeksExactly_next :
    (seek false (.start (2 ^ 63))).run openedReader = .error .invalidInput openedReader ∧
      ¬ SeeksExactly false openedReader (.start (2 ^ 63)) := by
  have hrun : (seek false (.start (2 ^ 63))).run openedReader =
      .error .invalidInput openedReader := rfl
  refine ⟨hrun, fun h => ?_⟩
  have hok := h.1 (by decide)
  rw [hrun] at hok
  cases hok

end Rspacefs.VerifiedReader
