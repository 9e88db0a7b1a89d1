import Rspacefs.Lib.Radix
import Rspacefs.Lib.Utf8

/-!
# Paths in `/proc/self/mountinfo`

`unescape_mountinfo` of `rspacefs-fuse/src/main.rs` decodes a path of the kernel's mount table. It
goes through the bytes of the text and pushes each as a character, which is right for characters
below 128 only; and the three bytes behind a backslash are taken as a slice of the text, which
panics if the slice ends inside a character. A text without a backslash is returned as it is.

## Main definitions

* `escapeMountinfo` — what the kernel writes for a path
* `unescapeMountinfo` — the source's decoder; `none` where a slice panics
* `SafeSlices` — every slice behind a backslash ends at a boundary

## Main results

* `unescapeFrom_escape` — what the bytes of an escaped path are decoded to
* `unescapeFrom_ne_none_iff` — when no slice panics
* `unescapeMountinfo_iff` — for which paths the decoder undoes the escapes, and for which texts
  it returns
-/

namespace Rspacefs.Fuse

open Lib

/-- The characters that the kernel escapes: space, tab, newline and backslash. -/
def Escaped (ch : Char) : Prop := ch = ' ' ∨ ch = '\t' ∨ ch = '\n' ∨ ch = '\\'

instance (ch : Char) : Decidable (Escaped ch) := inferInstanceAs (Decidable (_ ∨ _ ∨ _ ∨ _))

/-- A backslash and three octal digits in the place of a character that is escaped. -/
def escapeMountChar (ch : Char) : List Char :=
  if ch = ' ' then "\\040".toList
  else if ch = '\t' then "\\011".toList
  else if ch = '\n' then "\\012".toList
  else if ch = '\\' then "\\134".toList
  else [ch]

/-- What the kernel writes for a path. -/
def escapeMountinfo (path : List Char) : List Char := path.flatMap escapeMountChar

/-- `b as char`. -/
def byteChar (b : UInt8) : Char := Char.ofNat b.toNat

/-- The loop of `unescape_mountinfo` from a position on. Three digits behind a backslash are a
byte; `none` where the slice of the digits does not lie between two characters. -/
def unescapeFrom : List UInt8 → Option (List Char)
  | [] => some []
  | b :: d₁ :: d₂ :: d₃ :: rest =>
    if b = 92 then
      if AtBoundary (d₁ :: d₂ :: d₃ :: rest) ∧ AtBoundary rest then
        match fromStrRadix 8 256 [d₁, d₂, d₃] with
        | some v => (unescapeFrom rest).map (byteChar (UInt8.ofNat v) :: ·)
        | none => (unescapeFrom (d₁ :: d₂ :: d₃ :: rest)).map (byteChar b :: ·)
      else none
    else (unescapeFrom (d₁ :: d₂ :: d₃ :: rest)).map (byteChar b :: ·)
  | b :: rest => (unescapeFrom rest).map (byteChar b :: ·)

/-- Decode the octal escapes of a path field. -/
def unescapeMountinfo (field : List Char) : Option (List Char) :=
  if '\\' ∈ field then unescapeFrom (field.flatMap String.utf8EncodeChar) else some field

/-- No byte four places behind a backslash is inside a character. -/
def SafeSlices (bytes : List UInt8) : Prop :=
  ∀ i : Nat, bytes[i]? = some 92 → ∀ b, bytes[i + 4]? = some b → isContinuation b = false

variable {ch : Char} {path : List Char} {b : UInt8} {bytes rest : List UInt8}

/-! ### Decoding what was escaped -/

theorem unescapeFrom_cons (h : b ≠ 92) (rest : List UInt8) :
    unescapeFrom (b :: rest) = (unescapeFrom rest).map (byteChar b :: ·) := by
  match rest with
  | [] | [_] | [_, _] => rfl
  | d₁ :: d₂ :: d₃ :: rest => rw [unescapeFrom, if_neg h]

/-- Bytes that are no backslash become characters one by one. -/
theorem unescapeFrom_append (h : ∀ b ∈ bytes, b ≠ 92) (rest : List UInt8) :
    unescapeFrom (bytes ++ rest) = (unescapeFrom rest).map (bytes.map byteChar ++ ·) := by
  induction bytes with
  | nil => exact Option.map_id'.symm
  | cons b bytes ih =>
    obtain ⟨hb, hbytes⟩ := List.forall_mem_cons.mp h
    rw [List.cons_append, unescapeFrom_cons hb, ih hbytes, Option.map_map]
    rfl

/-- Three octal digits behind a backslash become one character. -/
theorem unescapeFrom_octal (d₁ d₂ d₃ : UInt8) (v : Nat)
    (hdigits : fromStrRadix 8 256 [d₁, d₂, d₃] = some v) (hfirst : isContinuation d₁ = false)
    (hrest : AtBoundary rest) :
    unescapeFrom (92 :: d₁ :: d₂ :: d₃ :: rest) =
      (unescapeFrom rest).map (byteChar (UInt8.ofNat v) :: ·) := by
  rw [unescapeFrom, if_pos rfl, if_pos ⟨atBoundary_cons.mpr hfirst, hrest⟩, hdigits]

/-- The byte of a backslash is that of no other character. -/
theorem eq_slash_of_mem (h : 92 ∈ String.utf8EncodeChar ch) : ch = '\\' := by
  by_cases hascii : ch.toNat < 128
  · rw [utf8EncodeChar_ascii hascii, List.mem_singleton] at h
    have hcode := congrArg UInt8.toNat h
    rw [UInt8.toNat_ofNat', Nat.mod_eq_of_lt (by omega)] at hcode
    exact Char.toNat_inj.mp hcode.symm
  · obtain ⟨-, -, -, -, -, hwide⟩ := utf8EncodeChar_wide (Nat.not_lt.mp hascii)
    exact absurd (hwide 92 h) (by decide)

/-- What a character comes back as. -/
def roundTripChar (ch : Char) : List Char :=
  if Escaped ch then [ch] else (String.utf8EncodeChar ch).map byteChar

theorem unescapeFrom_escapeChar (ch : Char) (hrest : AtBoundary rest) :
    unescapeFrom ((escapeMountChar ch).flatMap String.utf8EncodeChar ++ rest) =
      (unescapeFrom rest).map (roundTripChar ch ++ ·) := by
  by_cases h : Escaped ch
  · rw [roundTripChar, if_pos h]
    rcases h with rfl | rfl | rfl | rfl
    · exact unescapeFrom_octal 48 52 48 32 rfl rfl hrest
    · exact unescapeFrom_octal 48 49 49 9 rfl rfl hrest
    · exact unescapeFrom_octal 48 49 50 10 rfl rfl hrest
    · exact unescapeFrom_octal 49 51 52 92 rfl rfl hrest
  · have hplain : escapeMountChar ch = [ch] := by
      unfold Escaped at h
      push Not at h
      rw [escapeMountChar, if_neg h.1, if_neg h.2.1, if_neg h.2.2.1, if_neg h.2.2.2]
    have hslash : ∀ b ∈ String.utf8EncodeChar ch, b ≠ 92 := by
      intro b hb hb92
      exact h (.inr (.inr (.inr (eq_slash_of_mem (hb92 ▸ hb)))))
    rw [hplain, List.flatMap_singleton, roundTripChar, if_neg h, unescapeFrom_append hslash]

/-- What the bytes of an escaped path are decoded to. -/
theorem unescapeFrom_escape (path : List Char) :
    unescapeFrom ((escapeMountinfo path).flatMap String.utf8EncodeChar) =
      some (path.flatMap roundTripChar) := by
  induction path with
  | nil => rfl
  | cons ch path ih =>
    have hrest := atBoundary_utf8 (escapeMountinfo path)
    unfold escapeMountinfo at ih hrest ⊢
    rw [List.flatMap_cons, List.flatMap_append, unescapeFrom_escapeChar ch hrest, ih]
    rfl

/-! ### What comes back -/

theorem ascii_of_escaped (h : Escaped ch) : ch.toNat < 128 := by
  rcases h with rfl | rfl | rfl | rfl <;> decide

theorem roundTripChar_ascii (h : ch.toNat < 128) : roundTripChar ch = [ch] := by
  unfold roundTripChar
  split
  · rfl
  · have hcode : (UInt8.ofNat ch.toNat).toNat = ch.toNat := by
      rw [UInt8.toNat_ofNat', Nat.mod_eq_of_lt (by omega)]
    rw [utf8EncodeChar_ascii h, List.map_singleton, byteChar, hcode, Char.ofNat_toNat]

/-- A character from 128 on comes back as several. -/
theorem length_roundTripChar_wide (h : 128 ≤ ch.toNat) : 2 ≤ (roundTripChar ch).length := by
  have hplain : ¬ Escaped ch := fun hescaped => absurd (ascii_of_escaped hescaped) (by omega)
  obtain ⟨b, rest, hbytes, hrest, -, -⟩ := utf8EncodeChar_wide h
  have hpos := List.length_pos_iff.mpr hrest
  rw [roundTripChar, if_neg hplain, hbytes, List.length_map, List.length_cons]
  omega

theorem length_roundTrip (path : List Char) :
    path.length + path.countP (fun ch => 128 ≤ ch.toNat) ≤ (path.flatMap roundTripChar).length := by
  induction path with
  | nil => exact Nat.le_refl 0
  | cons ch path ih =>
    rw [List.flatMap_cons, List.length_append, List.length_cons, List.countP_cons]
    by_cases h : ch.toNat < 128
    · rw [roundTripChar_ascii h, List.length_singleton, if_neg (by simpa using h)]
      omega
    · have htwo := length_roundTripChar_wide (Nat.not_lt.mp h)
      rw [if_pos (by simpa using Nat.not_lt.mp h)]
      omega

theorem roundTrip_eq_iff (path : List Char) :
    path.flatMap roundTripChar = path ↔ ∀ ch ∈ path, ch.toNat < 128 := by
  constructor
  · intro heq ch hch
    have hlength := length_roundTrip path
    rw [heq] at hlength
    have hnone : path.countP (fun ch => decide (128 ≤ ch.toNat)) = 0 := by omega
    have hch := List.countP_eq_zero.mp hnone ch hch
    simpa using hch
  · intro hascii
    calc path.flatMap roundTripChar = path.flatMap fun ch => [ch] := by
          apply List.flatMap_congr
          intro ch hch
          exact roundTripChar_ascii (hascii ch hch)
      _ = path := List.flatMap_singleton' path

theorem escapeMountinfo_plain (h : ∀ ch ∈ path, ¬ Escaped ch) : escapeMountinfo path = path := by
  calc path.flatMap escapeMountChar = path.flatMap fun ch => [ch] := by
        apply List.flatMap_congr
        intro ch hch
        have hplain := h ch hch
        unfold Escaped at hplain
        push Not at hplain
        rw [escapeMountChar, if_neg hplain.1, if_neg hplain.2.1, if_neg hplain.2.2.1,
          if_neg hplain.2.2.2]
    _ = path := List.flatMap_singleton' path

/-- An escape begins with a backslash. -/
theorem slash_mem_escapeMountinfo (hch : ch ∈ path) (h : Escaped ch) :
    '\\' ∈ escapeMountinfo path := by
  apply List.mem_flatMap.mpr
  refine ⟨ch, hch, ?_⟩
  rcases h with rfl | rfl | rfl | rfl <;> decide

/-- The decoder undoes the escapes of a path without any, and of one with characters below 128
only. -/
theorem unescape_escape_iff (path : List Char) :
    unescapeMountinfo (escapeMountinfo path) = some path ↔
      (∀ ch ∈ path, ¬ Escaped ch) ∨ ∀ ch ∈ path, ch.toNat < 128 := by
  by_cases hplain : ∀ ch ∈ path, ¬ Escaped ch
  · have hslash : '\\' ∉ path := fun hmem => hplain _ hmem (.inr (.inr (.inr rfl)))
    rw [escapeMountinfo_plain hplain, unescapeMountinfo, if_neg hslash]
    exact iff_of_true rfl (.inl hplain)
  · obtain ⟨ch, hch, hescaped⟩ : ∃ ch ∈ path, Escaped ch := by
      push Not at hplain
      exact hplain
    rw [unescapeMountinfo, if_pos (slash_mem_escapeMountinfo hch hescaped), unescapeFrom_escape,
      Option.some_inj, roundTrip_eq_iff]
    exact (or_iff_right hplain).symm

/-! ### Slices that end inside a character -/

theorem safeSlices_cons :
    SafeSlices (b :: bytes) ↔ (b = 92 → AtBoundary (bytes.drop 3)) ∧ SafeSlices bytes := by
  constructor
  · intro h
    constructor
    · intro hb b' hb'
      rw [List.head?_drop] at hb'
      exact h 0 (by rw [hb]; rfl) b' hb'
    · intro i hi b' hb'
      exact h (i + 1) hi b' hb'
  · intro h i hi b' hb'
    cases i with
    | zero =>
      apply h.1 (Option.some_inj.mp hi) b'
      rw [List.head?_drop]
      exact hb'
    | succ i => exact h.2 i hi b' hb'

theorem safeSlices_slash (d₁ d₂ d₃ : UInt8) (rest : List UInt8) :
    SafeSlices (92 :: d₁ :: d₂ :: d₃ :: rest) ↔
      AtBoundary rest ∧ SafeSlices (d₁ :: d₂ :: d₃ :: rest) := by
  rw [safeSlices_cons]
  exact and_congr_left' (forall_prop_of_true rfl)

theorem safeSlices_cons_of_ne (h : b ≠ 92) : SafeSlices (b :: bytes) ↔ SafeSlices bytes := by
  rw [safeSlices_cons]
  exact and_iff_right fun hslash => absurd hslash h

theorem digit_ne_slash {d₁ d₂ d₃ d : UInt8} {v : Nat}
    (h : fromStrRadix 8 256 [d₁, d₂, d₃] = some v) (hd : d ∈ [d₁, d₂, d₃]) : d ≠ 92 := by
  intro hslash
  rw [hslash] at hd
  rcases digit_of_mem h hd with hsign | hdigit
  · exact absurd hsign (by decide)
  · exact absurd hdigit (by decide)

theorem map_ne_none_iff {α β : Type} {o : Option α} {f : α → β} : o.map f ≠ none ↔ o ≠ none := by
  cases o <;> simp

/-- No slice panics exactly if all are safe. -/
theorem unescapeFrom_ne_none_iff
    (hchain : bytes.IsChain fun b b' => b.toNat < 128 → isContinuation b' = false) :
    unescapeFrom bytes ≠ none ↔ SafeSlices bytes := by
  induction bytes using unescapeFrom.induct with
  | case1 => exact iff_of_true nofun nofun
  | case2 d₁ d₂ d₃ rest hbound v hdigits ih =>
    -- The digits hold no backslash.
    have hnone : ∀ d ∈ [d₁, d₂, d₃], d ≠ 92 := fun d hd => digit_ne_slash hdigits hd
    rw [unescapeFrom, if_pos rfl, if_pos hbound, hdigits, map_ne_none_iff, safeSlices_slash,
      and_iff_right hbound.2, safeSlices_cons_of_ne (hnone d₁ (by simp)),
      safeSlices_cons_of_ne (hnone d₂ (by simp)), safeSlices_cons_of_ne (hnone d₃ (by simp))]
    exact ih hchain.tail.tail.tail.tail
  | case3 d₁ d₂ d₃ rest hbound hdigits ih =>
    rw [unescapeFrom, if_pos rfl, if_pos hbound, hdigits, map_ne_none_iff, safeSlices_slash,
      and_iff_right hbound.2]
    exact ih hchain.tail
  | case4 d₁ d₂ d₃ rest hbound =>
    rw [unescapeFrom, if_pos rfl, if_neg hbound, safeSlices_slash]
    refine iff_of_false (fun h => h rfl) fun hsafe => hbound ⟨?_, hsafe.1⟩
    exact atBoundary_cons.mpr ((List.isChain_cons_cons.mp hchain).1 (by decide))
  | case5 b d₁ d₂ d₃ rest hb ih =>
    rw [unescapeFrom, if_neg hb, map_ne_none_iff, safeSlices_cons_of_ne hb]
    exact ih hchain.tail
  | case6 b rest hshort ih =>
    -- There is no slice so close to the end.
    have hnone : rest.drop 3 = [] := by
      match rest with
      | [] | [_] | [_, _] => rfl
      | d₁ :: d₂ :: d₃ :: rest => exact (hshort d₁ d₂ d₃ rest rfl).elim
    rw [unescapeFrom, map_ne_none_iff, safeSlices_cons, hnone, and_iff_right fun _ => atBoundary_nil]
    · exact ih hchain.tail
    · exact hshort

theorem safeSlices_of_no_slash (h : 92 ∉ bytes) : SafeSlices bytes := by
  intro i hi
  exact absurd (List.mem_of_getElem? hi) h

/-- For which texts the decoder returns. -/
theorem unescapeMountinfo_ne_none_iff (s : List Char) :
    unescapeMountinfo s ≠ none ↔ SafeSlices (s.flatMap String.utf8EncodeChar) := by
  unfold unescapeMountinfo
  by_cases hslash : '\\' ∈ s
  · rw [if_pos hslash]
    exact unescapeFrom_ne_none_iff (isChain_utf8 s)
  · have hnone : 92 ∉ s.flatMap String.utf8EncodeChar := by
      intro hmem
      obtain ⟨ch, hch, hb⟩ := List.mem_flatMap.mp hmem
      exact hslash (eq_slash_of_mem hb ▸ hch)
    rw [if_neg hslash]
    exact iff_of_true nofun (safeSlices_of_no_slash hnone)

/-- The decoder undoes the escapes of a path if the path needs none or has only characters below
128, and of any text it returns if no slice behind a backslash ends inside a character. -/
theorem unescapeMountinfo_iff (s : List Char) :
    (unescapeMountinfo (escapeMountinfo s) = some s ↔
        (∀ ch ∈ s, ¬ Escaped ch) ∨ ∀ ch ∈ s, ch.toNat < 128) ∧
      (unescapeMountinfo s ≠ none ↔ SafeSlices (s.flatMap String.utf8EncodeChar)) := by
  exact ⟨unescape_escape_iff s, unescapeMountinfo_ne_none_iff s⟩

theorem unescapeMountinfo_wide :
    unescapeMountinfo (escapeMountinfo "é x".toList) ≠ some "é x".toList ∧
      unescapeMountinfo "\\éé".toList = none := by
  decide

end Rspacefs.Fuse
