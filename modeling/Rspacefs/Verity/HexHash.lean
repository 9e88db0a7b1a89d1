import Rspacefs.Lib.EState
import Rspacefs.Lib.Radix
import Rspacefs.Lib.Utf8
import Rspacefs.Verity.Manifest

/-!
# Hashes in a manifest

The module `hex_hash` of `rspacefs-verity/src/verity.rs` writes a hash of a manifest as 64 hex
digits and reads it back. It cuts the text into pieces of two bytes and leaves each to
`u8::from_str_radix`, which also takes a plus sign in front of a digit.

## Main definitions

* `HexHash.serialize`, `HexHash.deserialize` — the source's functions
* `HexHash.IsHex` — 64 hex digits
* `HexHash.Signed` — plus signs in the place of the first digit of some bytes

## Main results

* `deserialize_eq_ok_iff` — the loop reads the pieces one by one
* `deserialize_isOk_iff` — which texts are read
* `deserialize_serialize` — a hash that was written is read back
* `deserialize_exact_iff` — for which texts only hex is read
-/

namespace Rspacefs.HexHash

open Lib MerkleTree

/-- What `deserialize` rejects a text with. -/
inductive HexError
  /-- `expected 64 hex chars`. -/
  | length
  /-- `Utf8Error`. -/
  | utf8
  /-- `ParseIntError`. -/
  | parseInt
  deriving DecidableEq, Repr

/-- `{:02x}`. -/
def hexByte (b : UInt8) : List Char := [Nat.digitChar (b.toNat / 16), Nat.digitChar (b.toNat % 16)]

/-- The text of a hash. -/
def serialize (hash : Hash256) : List Char := hash.val.flatMap hexByte

/-- `chunks(2)`. -/
def chunksOfTwo : Bytes → List Bytes
  | a :: b :: rest => [a, b] :: chunksOfTwo rest
  | [a] => [[a]]
  | [] => []

/-- `from_utf8` and `from_str_radix` on a chunk. -/
def parseByte (chunk : Bytes) : Except HexError UInt8 :=
  if chunk.toByteArray.IsValidUTF8 then
    match fromStrRadix 16 256 chunk with
    | some v => .ok (UInt8.ofNat v)
    | none => .error .parseInt
  else .error .utf8

/-- `hash[i] = byte`. -/
def setByte (hash : Hash256) (i : Nat) (byte : UInt8) : Hash256 :=
  ⟨hash.val.set i byte, by rw [List.length_set]; exact hash.2⟩

/-- The loop of `deserialize`, at chunk `i`. -/
def readChunks : List Bytes → Nat → Hash256 → Except HexError Hash256
  | [], _, hash => .ok hash
  | chunk :: chunks, i, hash => do
    let byte ← parseByte chunk
    readChunks chunks (i + 1) (setByte hash i byte)

/-- The hash of a text. -/
def deserialize (s : List Char) : Except HexError Hash256 :=
  if (utf8 s).length ≠ 64 then .error .length
  else readChunks (chunksOfTwo (utf8 s)) 0 zeroHash

variable {s text : List Char} {bytes : Bytes} {a b byte : UInt8} {ch : Char}

/-! ### The loop -/

/-- The loop leaves the bytes before it, and puts those of the chunks behind them. -/
theorem readChunks_eq_ok_iff {chunks : List Bytes} {i : Nat} {hash h : Hash256}
    (hroom : i + chunks.length ≤ hashSize) :
    readChunks chunks i hash = .ok h ↔ ∃ read, chunks.mapM parseByte = .ok read ∧
      h.val = hash.val.take i ++ read ++ hash.val.drop (i + chunks.length) := by
  induction chunks generalizing i hash with
  | nil =>
    constructor
    · rintro ⟨⟩
      exact ⟨[], rfl, by simp⟩
    · rintro ⟨read, ⟨⟩, hval⟩
      rw [List.reverse_nil, List.append_nil, List.length_nil, Nat.add_zero, List.take_append_drop] at hval
      exact congrArg Except.ok (Subtype.ext hval.symm)
  | cons chunk chunks ih =>
    rw [List.length_cons] at hroom ⊢
    have hi : i < hash.val.length := by
      rw [hash.2]
      omega
    -- the byte stands behind those before it, and no byte behind it has changed
    have htake : ∀ byte, (hash.val.set i byte).take (i + 1) = hash.val.take i ++ [byte] := by
      intro byte
      rw [List.take_add_one, List.take_set_of_le (Nat.le_refl i), List.getElem?_set_self hi]
      rfl
    have hdrop : ∀ byte, (hash.val.set i byte).drop (i + 1 + chunks.length) =
        hash.val.drop (i + (chunks.length + 1)) := by
      intro byte
      rw [List.drop_set_of_lt (by omega), Nat.add_assoc, Nat.add_comm 1]
    rw [readChunks, except_bind_eq_ok]
    simp only [ih (show i + 1 + chunks.length ≤ hashSize by omega), setByte, htake, hdrop,
      mapM_cons_eq_ok_iff]
    constructor
    · rintro ⟨byte, hbyte, read, hread, hval⟩
      exact ⟨byte :: read, ⟨byte, read, hbyte, hread, rfl⟩, by simp [hval]⟩
    · rintro ⟨_, ⟨byte, read, hbyte, hread, rfl⟩, hval⟩
      exact ⟨byte, hbyte, read, hread, by simp [hval]⟩

theorem length_chunksOfTwo (bytes : Bytes) :
    (chunksOfTwo bytes).length = (bytes.length + 1) / 2 := by
  fun_induction chunksOfTwo bytes with
  | case1 a b rest ih =>
    simp only [List.length_cons, ih]
    omega
  | case2 a => simp
  | case3 => simp

/-- The text has 64 bytes, and the hash is what its chunks are read as. -/
theorem deserialize_eq_ok_iff {h : Hash256} :
    deserialize s = .ok h ↔
      (utf8 s).length = 64 ∧ (chunksOfTwo (utf8 s)).mapM parseByte = .ok h.val := by
  unfold deserialize
  by_cases hlen : (utf8 s).length = 64
  · have hcount : (chunksOfTwo (utf8 s)).length = hashSize := by
      rw [length_chunksOfTwo, hlen]
      rfl
    rw [if_neg (not_not.mpr hlen), readChunks_eq_ok_iff (by omega), and_iff_right hlen, hcount,
      List.take_zero, Nat.zero_add, List.drop_of_length_le (le_of_eq zeroHash.2)]
    simp only [List.nil_append, List.append_nil]
    constructor
    · rintro ⟨read, hread, hval⟩
      rw [hval]
      exact hread
    · intro hread
      exact ⟨h.val, hread, rfl⟩
  · rw [if_pos hlen]
    exact iff_of_false nofun fun h => hlen h.1

/-! ### One byte -/

/-- A character from 0-9, a-f, A-F. -/
def IsHexDigit (ch : Char) : Prop :=
  '0' ≤ ch ∧ ch ≤ '9' ∨ 'a' ≤ ch ∧ ch ≤ 'f' ∨ 'A' ≤ ch ∧ ch ≤ 'F'

instance (ch : Char) : Decidable (IsHexDigit ch) := inferInstanceAs (Decidable (_ ∨ _ ∨ _))

/-- The hex digits are those of `from_str_radix`. -/
theorem isHexDigit_iff (hch : ch.toNat < 128) :
    IsHexDigit ch ↔ (digitValue 16 (asciiByte ch)).isSome = true :=
  forall_ascii (P := fun ch => IsHexDigit ch ↔ (digitValue 16 (asciiByte ch)).isSome = true)
    (by decide) hch

theorem IsHexDigit.ascii (h : IsHexDigit ch) : ch.toNat < 128 := by
  rcases h with ⟨-, hle⟩ | ⟨-, hle⟩ | ⟨-, hle⟩
  · exact (show ch.toNat ≤ 57 from hle).trans_lt (by decide)
  · exact (show ch.toNat ≤ 102 from hle).trans_lt (by decide)
  · exact (show ch.toNat ≤ 70 from hle).trans_lt (by decide)

/-- The digit that is written for what a digit is read as. -/
theorem digitChar_of_digitValue {d : Nat} (hch : ch.toNat < 128)
    (h : digitValue 16 (asciiByte ch) = some d) : Nat.digitChar d = ch.toLower := by
  have hall := forall_ascii (P := fun ch => ∀ d < 16,
    digitValue 16 (asciiByte ch) = some d → Nat.digitChar d = ch.toLower) (by decide) hch
  exact hall d (digitValue_lt h) h

theorem digitValue_digitChar {d : Nat} (hd : d < 16) :
    (Nat.digitChar d).toNat < 128 ∧ digitValue 16 (asciiByte (Nat.digitChar d)) = some d := by
  have hall : ∀ d < 16, (Nat.digitChar d).toNat < 128 ∧
      digitValue 16 (asciiByte (Nat.digitChar d)) = some d := by decide
  exact hall d hd

theorem toNat_lt_of_pair {y : Nat} {p : Prop} {q : Nat → Prop} (hy : digitValue 16 b = some y)
    (hvalue : a = 43 ∧ p ∨ ∃ x, digitValue 16 a = some x ∧ q x) : a.toNat < 128 ∧ b.toNat < 128 := by
  refine ⟨?_, toNat_lt_of_digit (by rw [hy]; rfl)⟩
  rcases hvalue with ⟨rfl, -⟩ | ⟨x, hx, -⟩
  · decide
  · exact toNat_lt_of_digit (by rw [hx]; rfl)

/-- Two bytes are read if the second is a digit and the first is one or a plus sign. -/
theorem parseByte_pair_eq_ok_iff :
    parseByte [a, b] = .ok byte ↔ ∃ y, digitValue 16 b = some y ∧
      (a = 43 ∧ byte = UInt8.ofNat y ∨
        ∃ x, digitValue 16 a = some x ∧ byte = UInt8.ofNat (x * 16 + y)) := by
  have hpair : ∀ {v}, fromStrRadix 16 256 [a, b] = some v ↔ _ :=
    fromStrRadix_pair_iff (Nat.le_refl (16 * 16))
  constructor
  · intro h
    unfold parseByte at h
    split at h
    · split at h
      · rename_i v hv
        obtain ⟨y, hy, hvalue⟩ := hpair.mp hv
        obtain rfl := Except.ok.inj h
        refine ⟨y, hy, ?_⟩
        rcases hvalue with ⟨ha, rfl⟩ | ⟨x, hx, rfl⟩
        · exact .inl ⟨ha, rfl⟩
        · exact .inr ⟨x, hx, rfl⟩
      · cases h
    · cases h
  · rintro ⟨y, hy, hvalue⟩
    obtain ⟨hfirst, hsecond⟩ := toNat_lt_of_pair hy hvalue
    -- `from_utf8` comes first; a digit or a sign is valid text
    have hvalid : [a, b].toByteArray.IsValidUTF8 := by
      apply isValidUTF8_ascii
      intro c hc
      rcases List.mem_pair.mp hc with rfl | rfl
      · exact hfirst
      · exact hsecond
    rw [parseByte, if_pos hvalid]
    rcases hvalue with ⟨ha, rfl⟩ | ⟨x, hx, rfl⟩
    · rw [hpair.mpr ⟨y, hy, .inl ⟨ha, rfl⟩⟩]
    · rw [hpair.mpr ⟨y, hy, .inr ⟨x, hx, rfl⟩⟩]

/-- Two characters are read if the second is a hex digit and the first is one or a plus sign. -/
theorem parseByte_isOk_iff {first second : Char} (hfirst : first.toNat < 128)
    (hsecond : second.toNat < 128) :
    (∃ byte, parseByte [asciiByte first, asciiByte second] = .ok byte) ↔
      (IsHexDigit first ∨ first = '+') ∧ IsHexDigit second := by
  simp only [isHexDigit_iff hfirst, isHexDigit_iff hsecond, Option.isSome_iff_exists,
    parseByte_pair_eq_ok_iff]
  constructor
  · rintro ⟨byte, y, hy, ⟨hsign, -⟩ | ⟨x, hx, -⟩⟩
    · exact ⟨Or.inr (asciiByte_inj hfirst (by decide) hsign), y, hy⟩
    · exact ⟨Or.inl ⟨x, hx⟩, y, hy⟩
  · rintro ⟨⟨x, hx⟩ | rfl, y, hy⟩
    · exact ⟨_, y, hy, Or.inr ⟨x, hx, rfl⟩⟩
    · exact ⟨_, y, hy, Or.inl ⟨rfl, rfl⟩⟩

/-- A byte that was read from two hex digits is written as these, in lower case. -/
theorem hexByte_of_parseByte {first second : Char} (hfirst : IsHexDigit first)
    (hsecond : IsHexDigit second) (h : parseByte [asciiByte first, asciiByte second] = .ok byte) :
    hexByte byte = [first.toLower, second.toLower] := by
  obtain ⟨y, hy, ⟨hsign, -⟩ | ⟨x, hx, rfl⟩⟩ := parseByte_pair_eq_ok_iff.mp h
  · obtain rfl : first = '+' := asciiByte_inj hfirst.ascii (by decide) hsign
    exact absurd hfirst (by decide)
  · have hxlt := digitValue_lt hx
    have hylt := digitValue_lt hy
    have hbyte : (UInt8.ofNat (x * 16 + y)).toNat = x * 16 + y := by
      rw [UInt8.toNat_ofNat']
      exact Nat.mod_eq_of_lt (by omega)
    rw [hexByte, hbyte, show (x * 16 + y) / 16 = x by omega, show (x * 16 + y) % 16 = y by omega,
      digitChar_of_digitValue hfirst.ascii hx, digitChar_of_digitValue hsecond.ascii hy]

/-- A byte that was written is read back. -/
theorem parseByte_hexByte (b : UInt8) : parseByte ((hexByte b).map asciiByte) = .ok b := by
  have hb := b.toNat_lt
  refine parseByte_pair_eq_ok_iff.mpr ⟨b.toNat % 16, (digitValue_digitChar (by omega)).2,
    Or.inr ⟨b.toNat / 16, (digitValue_digitChar (by omega)).2, ?_⟩⟩
  rw [Nat.div_add_mod', UInt8.ofNat_toNat]

/-! ### Which texts are read -/

/-- Hex digits, but for plus signs in the place of the first digit of a byte. -/
def Pairs (text : List Char) : Prop :=
  ∀ j ch, text[j]? = some ch → IsHexDigit ch ∨ ch = '+' ∧ j % 2 = 0

instance (text : List Char) : Decidable (Pairs text) :=
  decidable_of_iff (∀ j : Fin text.length, IsHexDigit text[j] ∨ text[j] = '+' ∧ j.val % 2 = 0) <| by
    constructor
    · intro h j ch hj
      obtain ⟨hlt, rfl⟩ := List.getElem?_eq_some_iff.mp hj
      exact h ⟨j, hlt⟩
    · intro h j
      exact h j.val _ (List.getElem?_eq_getElem j.isLt)

theorem Pairs.ascii (h : Pairs text) : ∀ ch ∈ text, ch.toNat < 128 := by
  intro ch hch
  obtain ⟨j, hj⟩ := List.getElem?_of_mem hch
  rcases h j ch hj with hdigit | ⟨rfl, -⟩
  · exact hdigit.ascii
  · decide

theorem pairs_cons_cons {first second : Char} :
    Pairs (first :: second :: text) ↔
      (IsHexDigit first ∨ first = '+') ∧ IsHexDigit second ∧ Pairs text := by
  constructor
  · intro h
    refine ⟨(h 0 first rfl).imp_right And.left, ?_, ?_⟩
    · exact (h 1 second rfl).resolve_right fun hsign => by cases hsign.2
    · intro j ch hj
      have hshift := h (j + 2) ch hj
      rwa [Nat.add_mod_right] at hshift
  · rintro ⟨hfirst, hsecond, htext⟩ j ch hj
    match j with
    | 0 =>
      obtain rfl := Option.some_inj.mp hj
      exact hfirst.imp_right fun h => ⟨h, rfl⟩
    | 1 =>
      obtain rfl := Option.some_inj.mp hj
      exact Or.inl hsecond
    | j + 2 =>
      rw [Nat.add_mod_right]
      exact htext j ch hj

theorem even_of_cons_cons {α : Type} {first second : α} {l : List α}
    (h : (first :: second :: l).length % 2 = 0) : l.length % 2 = 0 := by
  rw [List.length_cons, List.length_cons] at h
  omega

/-- The chunks of a text of bytes below 128 are all read exactly if it has such pairs. -/
theorem mapM_parseByte_isOk_iff (hascii : ∀ ch ∈ text, ch.toNat < 128)
    (heven : text.length % 2 = 0) :
    (∃ read, (chunksOfTwo (text.map asciiByte)).mapM parseByte = .ok read) ↔ Pairs text := by
  induction text using List.twoStepInduction with
  | nil => exact iff_of_true ⟨[], rfl⟩ nofun
  | singleton ch => simp at heven
  | cons_cons first second text ih _ =>
    obtain ⟨hfirst, hsecond, htext⟩ := List.forall_mem_cons.mp hascii |>.imp_right
      List.forall_mem_cons.mp
    have hrest : text.length % 2 = 0 := even_of_cons_cons heven
    rw [pairs_cons_cons, ← and_assoc, ← parseByte_isOk_iff hfirst hsecond, ← ih htext hrest]
    simp only [List.map_cons, chunksOfTwo, mapM_cons_eq_ok_iff]
    constructor
    · rintro ⟨_, byte, read, hbyte, hread, -⟩
      exact ⟨⟨byte, hbyte⟩, read, hread⟩
    · rintro ⟨⟨byte, hbyte⟩, read, hread⟩
      exact ⟨_, byte, read, hbyte, hread, rfl⟩

/-- What was read from hex digits is written as these, in lower case. -/
theorem flatMap_hexByte_of_mapM {read : Bytes} (hdigits : ∀ ch ∈ text, IsHexDigit ch)
    (heven : text.length % 2 = 0)
    (h : (chunksOfTwo (text.map asciiByte)).mapM parseByte = .ok read) :
    read.flatMap hexByte = text.map Char.toLower := by
  induction text using List.twoStepInduction generalizing read with
  | nil =>
    cases h
    rfl
  | singleton ch => simp at heven
  | cons_cons first second text ih _ =>
    obtain ⟨hfirst, hsecond, htext⟩ := List.forall_mem_cons.mp hdigits |>.imp_right
      List.forall_mem_cons.mp
    have hrest : text.length % 2 = 0 := even_of_cons_cons heven
    obtain ⟨byte, rest, hbyte, hread, rfl⟩ := mapM_cons_eq_ok_iff.mp h
    rw [List.flatMap_cons, hexByte_of_parseByte hfirst hsecond hbyte, ih htext hrest hread]
    rfl

/-- Bytes that were written are read back. -/
theorem mapM_parseByte_hexByte (bytes : Bytes) :
    (chunksOfTwo ((bytes.flatMap hexByte).map asciiByte)).mapM parseByte = .ok bytes := by
  induction bytes with
  | nil => rfl
  | cons b bytes ih =>
    rw [List.flatMap_cons, List.map_append]
    exact mapM_cons_eq_ok_iff.mpr ⟨b, bytes, parseByte_hexByte b, ih, rfl⟩

theorem ascii_hexByte (b : UInt8) : ∀ ch ∈ hexByte b, ch.toNat < 128 := by
  have hb := b.toNat_lt
  intro ch hch
  rcases List.mem_pair.mp hch with rfl | rfl
  · exact (digitValue_digitChar (by omega)).1
  · exact (digitValue_digitChar (by omega)).1

/-- A hash that was written is read back. -/
theorem deserialize_serialize (hash : Hash256) : deserialize (serialize hash) = .ok hash := by
  have hascii : ∀ ch ∈ serialize hash, ch.toNat < 128 := by
    intro ch hch
    obtain ⟨b, -, hch⟩ := List.mem_flatMap.mp hch
    exact ascii_hexByte b ch hch
  have hlen : (serialize hash).length = 64 := by
    rw [serialize, List.length_flatMap, show (fun b => (hexByte b).length) = fun _ => 2 from rfl,
      List.map_const', List.sum_replicate_nat, hash.2]
    rfl
  rw [deserialize_eq_ok_iff, utf8, utf8_ascii hascii, List.length_map]
  exact ⟨hlen, mapM_parseByte_hexByte hash.val⟩

/-- Chunks that are read have only bytes below 128. -/
theorem ascii_of_mapM {read : Bytes} (heven : bytes.length % 2 = 0)
    (h : (chunksOfTwo bytes).mapM parseByte = .ok read) : ∀ b ∈ bytes, b.toNat < 128 := by
  induction bytes using List.twoStepInduction generalizing read with
  | nil => exact nofun
  | singleton a => simp at heven
  | cons_cons a b bytes ih _ =>
    obtain ⟨byte, rest, hbyte, hread, -⟩ := mapM_cons_eq_ok_iff.mp h
    obtain ⟨y, hy, hvalue⟩ := parseByte_pair_eq_ok_iff.mp hbyte
    obtain ⟨hfirst, hsecond⟩ := toNat_lt_of_pair hy hvalue
    have hrest : bytes.length % 2 = 0 := even_of_cons_cons heven
    exact List.forall_mem_cons.mpr ⟨hfirst, List.forall_mem_cons.mpr ⟨hsecond, ih hrest hread⟩⟩

theorem ascii_of_deserialize {h : Hash256} (hread : deserialize s = .ok h) :
    ∀ ch ∈ s, ch.toNat < 128 := by
  obtain ⟨hlen, hbytes⟩ := deserialize_eq_ok_iff.mp hread
  exact ascii_of_utf8 (ascii_of_mapM (congrArg (· % 2) hlen) hbytes)

/-- On characters below 128. -/
theorem deserialize_ascii_eq_ok_iff {h : Hash256} (hascii : ∀ ch ∈ s, ch.toNat < 128) :
    deserialize s = .ok h ↔
      s.length = 64 ∧ (chunksOfTwo (s.map asciiByte)).mapM parseByte = .ok h.val := by
  rw [deserialize_eq_ok_iff, utf8, utf8_ascii hascii, List.length_map]

/-- A text is read exactly if it has 64 characters and such pairs. -/
theorem deserialize_isOk_iff : (∃ h, deserialize s = .ok h) ↔ s.length = 64 ∧ Pairs s := by
  constructor
  · rintro ⟨h, hread⟩
    have hascii := ascii_of_deserialize hread
    obtain ⟨hlen, hbytes⟩ := (deserialize_ascii_eq_ok_iff hascii).mp hread
    exact ⟨hlen, (mapM_parseByte_isOk_iff hascii (congrArg (· % 2) hlen)).mp ⟨h.val, hbytes⟩⟩
  · rintro ⟨hlen, hpairs⟩
    obtain ⟨read, hread⟩ :=
      (mapM_parseByte_isOk_iff hpairs.ascii (congrArg (· % 2) hlen)).mpr hpairs
    have hcount : read.length = hashSize := by
      rw [length_of_mapM_eq_ok hread, length_chunksOfTwo, List.length_map, hlen]
      rfl
    exact ⟨⟨read, hcount⟩, (deserialize_ascii_eq_ok_iff hpairs.ascii).mpr ⟨hlen, hread⟩⟩

/-- What was read from hex digits is written as these, in lower case. -/
theorem serialize_of_deserialize {h : Hash256} (hdigits : ∀ ch ∈ s, IsHexDigit ch)
    (hread : deserialize s = .ok h) : serialize h = s.map Char.toLower := by
  have hascii : ∀ ch ∈ s, ch.toNat < 128 := fun ch hch => (hdigits ch hch).ascii
  obtain ⟨hlen, hbytes⟩ := (deserialize_ascii_eq_ok_iff hascii).mp hread
  exact flatMap_hexByte_of_mapM hdigits (congrArg (· % 2) hlen) hbytes

/-! ### Only hex -/

/-- 64 characters from 0-9, a-f, A-F. -/
def IsHex (s : List Char) : Prop := s.length = 64 ∧ ∀ ch ∈ s, IsHexDigit ch

/-- A text is read exactly if it is hex, and is then written in lower case. -/
def ReadsHex (s : List Char) : Prop :=
  ((∃ h, deserialize s = .ok h) ↔ IsHex s) ∧
    ∀ h, deserialize s = .ok h → serialize h = s.map Char.toLower

/-- 64 hex digits, but for plus signs, at least one, in the place of the first digit of a byte. -/
def Signed (s : List Char) : Prop := s.length = 64 ∧ Pairs s ∧ '+' ∈ s

theorem isHex_iff : IsHex s ↔ s.length = 64 ∧ Pairs s ∧ '+' ∉ s := by
  unfold IsHex
  refine and_congr_right fun _ => ⟨fun h => ⟨fun j ch hj => ?_, fun hsign => ?_⟩, ?_⟩
  · exact Or.inl (h ch (List.mem_of_getElem? hj))
  · exact absurd (h '+' hsign) (by decide)
  · rintro ⟨hpairs, hsign⟩ ch hch
    obtain ⟨j, hj⟩ := List.getElem?_of_mem hch
    refine (hpairs j ch hj).resolve_right ?_
    rintro ⟨rfl, -⟩
    exact hsign hch

/-- The text is read although it is not hex. -/
theorem Signed.not_readsHex (h : Signed s) : ¬ ReadsHex s := by
  intro hreads
  have hok := deserialize_isOk_iff.mpr ⟨h.1, h.2.1⟩
  exact (isHex_iff.mp (hreads.1.mp hok)).2.2 h.2.2

/-- Only hex is read exactly where no plus sign makes the text one that `from_str_radix` reads; and
every hash is read back. -/
theorem deserialize_exact_iff (s : List Char) (hash : Hash256) :
    (ReadsHex s ↔ ¬ Signed s) ∧ deserialize (serialize hash) = .ok hash := by
  refine ⟨⟨fun h hsigned => hsigned.not_readsHex h, fun hsigned => ?_⟩, deserialize_serialize hash⟩
  have hhex : (∃ h, deserialize s = .ok h) ↔ IsHex s := by
    rw [deserialize_isOk_iff, isHex_iff]
    refine and_congr_right fun hlen => (and_iff_left_of_imp fun hpairs hsign => ?_).symm
    exact hsigned ⟨hlen, hpairs, hsign⟩
  exact ⟨hhex, fun h hread => serialize_of_deserialize (hhex.mp ⟨h, hread⟩).2 hread⟩

/-- A plus sign and a digit, 32 times. -/
def plusDigits : List Char := (List.replicate 32 "+f".toList).flatten

theorem not_readsHex_plusDigits :
    deserialize plusDigits = .ok ⟨List.replicate 32 15, rfl⟩ ∧ ¬ ReadsHex plusDigits :=
  ⟨by decide +kernel, Signed.not_readsHex ⟨by decide, by decide, by decide⟩⟩

end Rspacefs.HexHash
