import Mathlib.Data.List.Chain

/-!
# The bytes of a text

What a program sees that takes a text byte by byte: a character is one byte below 128, or a first
byte and one or more continuation bytes, all from 128 on.

## Main definitions

* `Lib.isContinuation` — a byte inside a character
* `Lib.AtBoundary` — bytes that do not begin inside a character

## Main results

* `utf8EncodeChar_ascii`, `utf8EncodeChar_wide` — the bytes of one character
* `isChain_utf8` — behind a byte below 128 there is no continuation byte
* `utf8_ascii`, `ascii_of_utf8` — a text of bytes below 128 is one byte for each character
-/

namespace Rspacefs.Lib

/-- A byte inside a character. -/
def isContinuation (b : UInt8) : Bool := decide (128 ≤ b.toNat ∧ b.toNat < 192)

/-- The bytes do not begin inside a character. -/
def AtBoundary (bytes : List UInt8) : Prop := ∀ b, bytes.head? = some b → isContinuation b = false

instance (bytes : List UInt8) : Decidable (AtBoundary bytes) :=
  match bytes with
  | [] => isTrue nofun
  | b :: _ =>
    decidable_of_iff (isContinuation b = false)
      ⟨fun h _ hb => Option.some_inj.mp hb ▸ h, fun h => h b rfl⟩

variable {ch : Char} {text : List Char} {bytes : List UInt8}

theorem atBoundary_cons {b : UInt8} : AtBoundary (b :: bytes) ↔ isContinuation b = false :=
  ⟨fun h => h b rfl, fun h _ hb => Option.some_inj.mp hb ▸ h⟩

theorem atBoundary_nil : AtBoundary [] := nofun

theorem utf8EncodeChar_ascii (h : ch.toNat < 128) :
    String.utf8EncodeChar ch = [UInt8.ofNat ch.toNat] := by
  have hle : ch.val.toNat ≤ 127 := Nat.le_of_lt_succ h
  rw [String.utf8EncodeChar, if_pos hle]
  rfl

theorem toNat_ofNat_add {n k : Nat} (h : n + k < 256) : (UInt8.ofNat (n + k)).toNat = n + k := by
  rw [UInt8.toNat_ofNat']
  exact Nat.mod_eq_of_lt h

/-- A character from 128 on has a first byte and others. -/
theorem utf8EncodeChar_wide (h : 128 ≤ ch.toNat) :
    ∃ b rest, String.utf8EncodeChar ch = b :: rest ∧ rest ≠ [] ∧ isContinuation b = false ∧
      ∀ b' ∈ String.utf8EncodeChar ch, 128 ≤ b'.toNat := by
  have hmod : ∀ n k m : Nat, 0 < m → m + k ≤ 256 → (UInt8.ofNat (n % m + k)).toNat = n % m + k := by
    intro n k m hpos hsum
    have hlt := Nat.mod_lt n hpos
    exact toNat_ofNat_add (by omega)
  have hnarrow : ¬ ch.val.toNat ≤ 0x7f := Nat.not_le.mpr h
  unfold String.utf8EncodeChar
  rw [if_neg hnarrow]
  -- two, three or four bytes
  split
  · refine ⟨_, _, rfl, List.cons_ne_nil _ _, ?_, ?_⟩
    · rw [isContinuation, hmod _ 0xc0 0x20 (by decide) (by decide), decide_eq_false_iff_not]
      omega
    · simp only [List.mem_cons, List.not_mem_nil, or_false, forall_eq_or_imp, forall_eq,
        hmod _ 0xc0 0x20 (by decide) (by decide), hmod _ 0x80 0x40 (by decide) (by decide)]
      omega
  · split
    · refine ⟨_, _, rfl, List.cons_ne_nil _ _, ?_, ?_⟩
      · rw [isContinuation, hmod _ 0xe0 0x10 (by decide) (by decide), decide_eq_false_iff_not]
        omega
      · simp only [List.mem_cons, List.not_mem_nil, or_false, forall_eq_or_imp, forall_eq,
          hmod _ 0xe0 0x10 (by decide) (by decide), hmod _ 0x80 0x40 (by decide) (by decide)]
        omega
    · refine ⟨_, _, rfl, List.cons_ne_nil _ _, ?_, ?_⟩
      · rw [isContinuation, hmod _ 0xf0 0x08 (by decide) (by decide), decide_eq_false_iff_not]
        omega
      · simp only [List.mem_cons, List.not_mem_nil, or_false, forall_eq_or_imp, forall_eq,
          hmod _ 0xf0 0x08 (by decide) (by decide), hmod _ 0x80 0x40 (by decide) (by decide)]
        omega

theorem not_isContinuation {b : UInt8} (h : b.toNat < 128) : isContinuation b = false := by
  rw [isContinuation, decide_eq_false_iff_not]
  omega

/-- A character begins at a boundary. -/
theorem exists_first (ch : Char) :
    ∃ b rest, String.utf8EncodeChar ch = b :: rest ∧ isContinuation b = false := by
  by_cases h : ch.toNat < 128
  · refine ⟨_, _, utf8EncodeChar_ascii h, not_isContinuation ?_⟩
    rw [UInt8.toNat_ofNat']
    omega
  · obtain ⟨b, rest, hbytes, -, hfirst, -⟩ := utf8EncodeChar_wide (Nat.not_lt.mp h)
    exact ⟨b, rest, hbytes, hfirst⟩

theorem atBoundary_utf8 (text : List Char) : AtBoundary (text.flatMap String.utf8EncodeChar) := by
  cases text with
  | nil => exact atBoundary_nil
  | cons ch text =>
    obtain ⟨b, rest, hbytes, hfirst⟩ := exists_first ch
    rw [List.flatMap_cons, hbytes]
    exact atBoundary_cons.mpr hfirst

/-- Behind a byte below 128 there is no continuation byte. -/
theorem isChain_utf8 (text : List Char) :
    (text.flatMap String.utf8EncodeChar).IsChain fun b b' =>
      b.toNat < 128 → isContinuation b' = false := by
  induction text with
  | nil => exact .nil
  | cons ch text ih =>
    rw [List.flatMap_cons]
    have hnext := atBoundary_utf8 text
    by_cases h : ch.toNat < 128
    · rw [utf8EncodeChar_ascii h, List.singleton_append, List.isChain_cons]
      exact ⟨fun b hb _ => hnext b hb, ih⟩
    · obtain ⟨b, rest, -, -, -, hwide⟩ := utf8EncodeChar_wide (Nat.not_lt.mp h)
      have hinside : (String.utf8EncodeChar ch).IsChain fun b b' =>
          b.toNat < 128 → isContinuation b' = false := by
        apply List.Pairwise.isChain
        apply List.pairwise_of_forall_mem_list
        intro b hb b' _ hlow
        have hhigh := hwide b hb
        omega
      exact hinside.append ih fun b _ b' hb' _ => hnext b' hb'

/-! ### Characters below 128 -/

/-- The byte of a character below 128. -/
def asciiByte (ch : Char) : UInt8 := UInt8.ofNat ch.toNat

theorem toNat_asciiByte (h : ch.toNat < 128) : (asciiByte ch).toNat = ch.toNat := by
  rw [asciiByte, UInt8.toNat_ofNat']
  exact Nat.mod_eq_of_lt (by omega)

theorem asciiByte_inj {ch' : Char} (h : ch.toNat < 128) (h' : ch'.toNat < 128)
    (heq : asciiByte ch = asciiByte ch') : ch = ch' := by
  have hcode := congrArg UInt8.toNat heq
  rw [toNat_asciiByte h, toNat_asciiByte h'] at hcode
  exact Char.toNat_inj.mp hcode

/-- A fact about the characters below 128 is checked for each of them. -/
theorem forall_ascii {P : Char → Prop} (h : ∀ n < 128, P (Char.ofNat n)) (hch : ch.toNat < 128) :
    P ch := by
  have hcode := h ch.toNat hch
  rwa [Char.ofNat_toNat] at hcode

/-- A text of characters below 128 has one byte for each. -/
theorem utf8_ascii (h : ∀ ch ∈ text, ch.toNat < 128) :
    text.flatMap String.utf8EncodeChar = text.map asciiByte := by
  induction text with
  | nil => rfl
  | cons ch text ih =>
    obtain ⟨hch, htext⟩ := List.forall_mem_cons.mp h
    rw [List.flatMap_cons, utf8EncodeChar_ascii hch, ih htext]
    rfl

/-- A text of bytes below 128 has characters below 128. -/
theorem ascii_of_utf8 (h : ∀ b ∈ text.flatMap String.utf8EncodeChar, b.toNat < 128) :
    ∀ ch ∈ text, ch.toNat < 128 := by
  intro ch hch
  by_contra hwide
  obtain ⟨b, rest, hbytes, -, -, hhigh⟩ := utf8EncodeChar_wide (Nat.not_lt.mp hwide)
  have hb : b ∈ String.utf8EncodeChar ch := by
    rw [hbytes]
    exact List.mem_cons_self
  exact Nat.not_lt.mpr (hhigh b hb) (h b (List.mem_flatMap.mpr ⟨ch, hch, hb⟩))

theorem toNat_ofNat_byte {b : UInt8} (h : b.toNat < 128) : (Char.ofNat b.toNat).toNat = b.toNat := by
  have hall : ∀ n < 128, (Char.ofNat n).toNat = n := by decide
  exact hall b.toNat h

/-- Bytes below 128 are a text. -/
theorem isValidUTF8_ascii (h : ∀ b ∈ bytes, b.toNat < 128) : bytes.toByteArray.IsValidUTF8 := by
  have htext : (bytes.map fun b => Char.ofNat b.toNat).flatMap String.utf8EncodeChar = bytes := by
    rw [utf8_ascii, List.map_map]
    · refine (List.map_congr_left fun b hb => ?_).trans (List.map_id bytes)
      rw [Function.comp_apply, asciiByte, toNat_ofNat_byte (h b hb), UInt8.ofNat_toNat]
      rfl
    · intro ch hch
      obtain ⟨b, hb, rfl⟩ := List.mem_map.mp hch
      rw [toNat_ofNat_byte (h b hb)]
      exact h b hb
  exact .intro (bytes.map fun b => Char.ofNat b.toNat) (congrArg List.toByteArray htext.symm)

end Rspacefs.Lib
