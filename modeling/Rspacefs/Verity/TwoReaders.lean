import Mathlib.Data.List.GetD
import Rspacefs.Verity.FailedRead
import Rspacefs.Verity.ShortReads
import Rspacefs.Verity.VerifiedFS

/-!
# The two verifying read paths

`verify_file_blocks` and the `VerifiedReader` that `VerifiedFS::open_file` returns, of
`rspacefs-verity/src/verity.rs`. The first reads a block up to the real end of the file and
pads what it got with zeros. The second reads up to the recorded size, and fails if the file
is shorter. A path that is not in the manifest passes the first and fails the second.

## Main definitions

* `VerifiedFS.openReader`, `VerifiedFS.readRange` — a fresh reader, and a range read with it
* `SamePadded`, `SameRecorded` — what the one and the other compare
* `CutOff`, `Overgrown` — the changes on which they disagree

## Main results

* `verifyFileBlocks_returns_iff_samePadded`, `readRange_ok_iff` — what each of them accepts
* `readers_agree_iff` — when they agree
-/

namespace Rspacefs

open Lib MerkleTree VerifiedReader

namespace VerifiedFS

variable {sha256 : Bytes → Hash256} {τ : Type} [FileSystem τ]

/-- `open_file`, with the reader it returns. -/
def openReader (v : VerifiedFS sha256 τ) (path : Path) : VfsResult VerifiedReader := do
  let _ ← FileSystem.openFile v.inner path
  match v.layer.manifest.files.find? (·.path = path) with
  | none => throw (.other ("verity: " ++ String.ofList (relPath path) ++ " not in manifest"))
  | some entry => return VerifiedReader.new v.layer entry

/-- What calls on a reader return. -/
def returned {α : Type} : EStateM.Result IoError VerifiedReader α → Except IoError α
  | .ok a _ => .ok a
  | .error e _ => .error e

/-- Open a file, seek to an offset and read. -/
def readRange (checks : Bool) (v : VerifiedFS sha256 τ) (path : Path) (len offset : Nat) :
    Except IoError Bytes := do
  let reader ← (openReader v path).mapError .inner
  returned ((VerifiedReader.seek checks (.start offset) >>= fun _ =>
    VerifiedReader.read sha256 (fun _ => contentAt v.inner path) len).run reader)

end VerifiedFS

/-! ### Contents byte by byte -/

section Contents

variable {was now : Bytes} {lo hi : Nat}

/-- The same bytes from `lo` to `hi`, where zeros follow either content. -/
def SamePadded (was now : Bytes) (lo hi : Nat) : Prop :=
  ∀ p, lo ≤ p → p < hi → now.getD p 0 = was.getD p 0

/-- The same bytes from `lo` to `hi`, as far as the recorded content `was` goes. -/
def SameRecorded (was now : Bytes) (lo hi : Nat) : Prop :=
  ∀ p, lo ≤ p → p < min was.length hi → now[p]? = was[p]?

/-- The current content ends early, and only zeros are missing. -/
def CutOff (was now : Bytes) (lo hi : Nat) : Prop :=
  SamePadded was now lo hi ∧ now.length < min was.length hi

/-- The current content goes on behind the recorded one with a byte other than zero. -/
def Overgrown (was now : Bytes) (lo hi : Nat) : Prop :=
  SameRecorded was now lo hi ∧ ∃ p, was.length ≤ p ∧ p < hi ∧ now.getD p 0 ≠ 0

theorem SamePadded.sameRecorded_iff (h : SamePadded was now lo hi) (hlo : lo < min was.length hi) :
    SameRecorded was now lo hi ↔ min was.length hi ≤ now.length := by
  constructor
  · intro hsame
    have hlast := hsame (min was.length hi - 1) (by omega) (by omega)
    have hthere : min was.length hi - 1 < was.length := by omega
    rw [List.getElem?_eq_getElem hthere] at hlast
    have hin := (List.getElem?_eq_some_iff.mp hlast).1
    omega
  · intro hlen p hp hlt
    have hbyte := h p hp (by omega)
    rw [List.getD_eq_getElem _ _ (by omega), List.getD_eq_getElem _ _ (by omega)] at hbyte
    rw [List.getElem?_eq_getElem (by omega), List.getElem?_eq_getElem (by omega), hbyte]

theorem SameRecorded.samePadded_iff (h : SameRecorded was now lo hi) (hlo : lo ≤ was.length) :
    SamePadded was now lo hi ↔ ∀ p, was.length ≤ p → p < hi → now.getD p 0 = 0 := by
  constructor
  · intro hsame p hp hlt
    rw [hsame p (by omega) hlt, List.getD_eq_default _ _ hp]
  · intro hzero p hp hlt
    by_cases hin : p < was.length
    · rw [List.getD_eq_getElem?_getD, List.getD_eq_getElem?_getD, h p hp (by omega)]
    · rw [hzero p (by omega) hlt, List.getD_eq_default _ _ (by omega)]

/-- The two comparisons agree on every content but these. -/
theorem samePadded_iff_sameRecorded_iff (hlo : lo < min was.length hi) :
    (SamePadded was now lo hi ↔ SameRecorded was now lo hi) ↔
      ¬ CutOff was now lo hi ∧ ¬ Overgrown was now lo hi := by
  constructor
  · intro hagree
    constructor
    · rintro ⟨hpadded, hshort⟩
      have := (hpadded.sameRecorded_iff hlo).mp (hagree.mp hpadded)
      omega
    · rintro ⟨hrecorded, p, hp, hlt, hbyte⟩
      exact hbyte ((hrecorded.samePadded_iff (by omega)).mp (hagree.mpr hrecorded) p hp hlt)
  · rintro ⟨hcut, hgrown⟩
    constructor
    · intro hpadded
      rw [hpadded.sameRecorded_iff hlo]
      by_contra hshort
      exact hcut ⟨hpadded, by omega⟩
    · intro hrecorded
      rw [hrecorded.samePadded_iff (by omega)]
      intro p hp hlt
      by_contra hbyte
      exact hgrown ⟨hrecorded, p, hp, hlt, hbyte⟩

/-- Padded blocks are equal when their bytes are. -/
theorem zeroPad_eq_zeroPad_iff {a b : Bytes} (ha : a.length ≤ blockSize) (hb : b.length ≤ blockSize) :
    zeroPad a = zeroPad b ↔ ∀ i < blockSize, a.getD i 0 = b.getD i 0 := by
  have hbyte : ∀ x : Bytes, x.length ≤ blockSize → ∀ i < blockSize,
      (zeroPad x)[i]? = some (x.getD i 0) := by
    intro x hx i hi
    rw [zeroPad_eq hx]
    by_cases hin : i < x.length
    · rw [List.getElem?_append_left hin, List.getElem?_eq_getElem hin, List.getD_eq_getElem _ _ hin]
    · rw [List.getElem?_append_right (by omega), List.getElem?_replicate_of_lt (by omega),
        List.getD_eq_default _ _ (by omega)]
  constructor
  · intro h i hi
    have hsame : (zeroPad a)[i]? = (zeroPad b)[i]? := by rw [h]
    rw [hbyte a ha i hi, hbyte b hb i hi] at hsame
    exact Option.some.inj hsame
  · intro h
    apply List.ext_getElem?
    intro i
    by_cases hi : i < blockSize
    · rw [hbyte a ha i hi, hbyte b hb i hi, h i hi]
    · rw [List.getElem?_eq_none (by rw [length_zeroPad ha]; omega),
        List.getElem?_eq_none (by rw [length_zeroPad hb]; omega)]

theorem getD_block (was : Bytes) (idx : Nat) {i : Nat} (hi : i < blockSize) :
    (block was idx).getD i 0 = was.getD (idx * blockSize + i) 0 := by
  rw [List.getD_eq_getElem?_getD, List.getD_eq_getElem?_getD, block, List.getElem?_take_of_lt hi,
    List.getElem?_drop]

/-- Padded blocks are the same, byte by byte. -/
theorem samePadded_blocks_iff {first n : Nat} :
    (∀ i < n, zeroPad (block now (first + i)) = zeroPad (block was (first + i))) ↔
      SamePadded was now (first * blockSize) ((first + n) * blockSize) := by
  simp only [zeroPad_eq_zeroPad_iff (length_block_le _ _) (length_block_le _ _)]
  constructor
  · intro h p hlo hhi
    have hmod := Nat.mod_lt p blockSize_pos
    have hdiv := Nat.div_add_mod' p blockSize
    have hblock := h (p / blockSize - first) (by unfold blockSize at *; omega) (p % blockSize) hmod
    have hat : first + (p / blockSize - first) = p / blockSize := by
      unfold blockSize at *
      omega
    rwa [hat, getD_block _ _ hmod, getD_block _ _ hmod, hdiv] at hblock
  · intro h i hi j hj
    rw [getD_block _ _ hj, getD_block _ _ hj]
    have hblock := Nat.mul_le_mul_right blockSize (show first + i + 1 ≤ first + n by omega)
    have hfirst := Nat.mul_le_mul_right blockSize (show first ≤ first + i by omega)
    rw [Nat.succ_mul] at hblock
    exact h _ (by omega) (by omega)

/-- Recorded blocks are there, byte by byte. -/
theorem sameRecorded_blocks_iff {first n : Nat} :
    (∀ i < n, slice now ((first + i) * blockSize) (block was (first + i)).length =
        block was (first + i)) ↔
      SameRecorded was now (first * blockSize) ((first + n) * blockSize) := by
  have hbyte : ∀ idx i, i < (block was idx).length →
      (slice now (idx * blockSize) (block was idx).length)[i]? = now[idx * blockSize + i]? ∧
        (block was idx)[i]? = was[idx * blockSize + i]? := by
    intro idx i hi
    have hle := length_block_le was idx
    rw [slice, List.getElem?_take_of_lt hi, List.getElem?_drop]
    refine ⟨rfl, ?_⟩
    rw [block, List.getElem?_take_of_lt (by omega), List.getElem?_drop]
  have hlen : ∀ idx, (block was idx).length = min blockSize (was.length - idx * blockSize) := by
    intro idx
    rw [block_eq_slice, length_slice]
  constructor
  · intro h p hlo hhi
    -- the byte at `p` is in block `p / blockSize`
    have hmod := Nat.mod_lt p blockSize_pos
    have hdiv := Nat.div_add_mod' p blockSize
    have hat : first + (p / blockSize - first) = p / blockSize := by
      unfold blockSize at *
      omega
    have hblock := h (p / blockSize - first) (by unfold blockSize at *; omega)
    rw [hat] at hblock
    obtain ⟨hslice, hrecorded⟩ := hbyte (p / blockSize) (p % blockSize)
      (by rw [hlen]; omega)
    rw [hdiv] at hslice hrecorded
    rw [← hslice, ← hrecorded, hblock]
  · intro h i hi
    apply List.ext_getElem?
    intro j
    have hblock := Nat.mul_le_mul_right blockSize (show first + i + 1 ≤ first + n by omega)
    have hfirst := Nat.mul_le_mul_right blockSize (show first ≤ first + i by omega)
    rw [Nat.succ_mul] at hblock
    by_cases hj : j < (block was (first + i)).length
    · obtain ⟨hslice, hrecorded⟩ := hbyte _ j hj
      rw [hlen] at hj
      rw [hslice, hrecorded]
      exact h _ (by omega) (by omega)
    -- beyond the recorded bytes both are at their end
    · have hle : (slice now ((first + i) * blockSize) (block was (first + i)).length).length ≤ j := by
        rw [length_slice]
        omega
      rw [List.getElem?_eq_none hle, List.getElem?_eq_none (Nat.not_lt.mp hj)]

end Contents

/-! ### What each path accepts -/

variable {sha256 : Bytes → Hash256} {σ τ : Type} [FileSystem σ] [FileSystem τ]
  {layer : VerifiedLayer} {f : FileEntry} {data c c' : Bytes} {dir : τ} {path : Path}
  {len offset : Nat} {gives : Nat → Nat → Nat} {cache : BlockCache} {checks : Bool}
  {onFailure : OnFailure}

/-- `verify_file_blocks` without its cache, over full reads, compares padded blocks. -/
theorem verifyFileBlocks_returns_iff_samePadded (htree : layer.tree = build sha256 data)
    (hroot : layer.rootHash = rootHash (build sha256 data)) (hreject : layer.onFailure = .reject)
    (hfind : layer.manifest.files.find? (·.path = path) = some f)
    (hplaced : MerkleTree.Placed data f c)
    (hcontent : contentAt dir path = .ok c') (hfull : ∀ i k, blockSize ≤ gives i k)
    (hinside : offset + len ≤ c.length)
    (htrust : ∀ idx, idx * blockSize < c.length →
      CollisionFree sha256 (hashedByBuild sha256 data ++
        hashedByVerify sha256 (build sha256 data) (f.blockRange.1 + idx) (block c' idx)) ∧
      hashBlock sha256 (block c' idx) ≠ zeroHash) :
    Returns (verifyFileBlocks sha256 layer false dir gives path len offset) cache ↔
      SamePadded c c' (offset / blockSize * blockSize)
        ((offset / blockSize + spannedBlocks len offset) * blockSize) := by
  rw [verifyFileBlocks_returns_iff hfind, ← samePadded_blocks_iff]
  apply forall_congr'
  intro i
  apply forall_congr'
  intro hi
  have hidx := lt_of_spannedBlocks hinside hi
  obtain ⟨hfree, hzero⟩ := htrust _ hidx
  -- a full read gives the whole block, so it passes exactly if it has the recorded bytes
  have hread : readRawBlock dir path (gives i) (offset / blockSize + i) =
      .ok (block c' (offset / blockSize + i)) := by
    rw [readRawBlock, hcontent]
    exact congrArg Except.ok (rawBlock_eq_block (hfull i) c' _)
  unfold BlockPasses
  rw [hread, htree, hroot, hreject, Nat.add_assoc]
  simp only [Bool.false_and, Bool.false_eq_true, false_or, Except.ok.injEq, exists_eq_left',
    verifyBlock_placed_iff hplaced hidx hfree hzero, reduceCtorEq, or_false]

/-- The reader loads a block exactly if the current content has the recorded bytes there. -/
theorem fetch_plainCheck_iff {backing : Backing} {idx : Nat} (h : Pinned sha256 data c (new layer f))
    (hidx : idx * blockSize < c.length) (hbacking : backing idx = .ok c')
    (htrust : Trusted sha256 data f backing) :
    (∃ d, fetch (plainCheck sha256) layer f backing idx = .ok d) ↔
      slice c' (idx * blockSize) (block c idx).length = block c idx := by
  have htoRead : toRead f idx = (block c idx).length := h.toRead idx
  have hsize : f.size = c.length := h.size
  obtain ⟨hfree, hzero⟩ := htrust idx c' (by rw [hsize]; exact hidx) hbacking
  rw [loaded, htoRead] at hfree hzero
  have hcheck : ∀ hlen : (slice c' (idx * blockSize) (block c idx).length).length =
      (block c idx).length, plainCheck sha256 layer f idx
        (slice c' (idx * blockSize) (block c idx).length) = .ok () ↔ _ := fun hlen =>
    h.check_iff hidx hlen hfree hzero
  constructor
  -- a block that is loaded was read in full and passed its check
  · rintro ⟨d, hd⟩
    obtain ⟨bytes, hbytes, hslice, hlen⟩ := readExact_eq_ok (fetch_eq_ok hd)
    obtain rfl := Except.ok.inj (hbacking.symm.trans hbytes)
    rw [htoRead] at hslice hlen
    subst hslice
    obtain ⟨d', -, hd⟩ := except_bind_eq_ok.mp hd
    obtain ⟨⟨⟩, hverdict, hd⟩ := except_bind_eq_ok.mp hd
    obtain rfl := Except.ok.inj hd
    exact (hcheck hlen).mp hverdict
  · intro hsame
    have hlen := congrArg List.length hsame
    have hpos : 0 < (block c idx).length := by
      rw [block_eq_slice, length_slice]
      unfold blockSize at *
      omega
    rw [length_slice] at hlen
    have hread : readExact (backing idx) (idx * blockSize) (toRead f idx) =
        .ok (slice c' (idx * blockSize) (block c idx).length) := by
      rw [hbacking, htoRead, readExact, if_pos (by omega)]
    refine ⟨slice c' (idx * blockSize) (block c idx).length, ?_⟩
    rw [fetch, hread, ok_bind, (hcheck (congrArg List.length hsame)).mpr hsame]
    rfl

/-- The blocks that a read touches are those that the range spans. -/
theorem touches_iff_spanned {r : VerifiedReader} {idx : Nat} (hposition : r.position = offset)
    (hlen : 0 < len) (hinside : offset + len ≤ r.entry.size) :
    Touches r len idx ↔ ∃ i < spannedBlocks len offset, offset / blockSize + i = idx := by
  constructor
  · rintro ⟨p, hle, hlt, hsize, rfl⟩
    rw [hposition] at hle hlt
    refine ⟨p / blockSize - offset / blockSize, ?_, ?_⟩
    · unfold spannedBlocks blockSize
      omega
    · unfold blockSize
      omega
  · rintro ⟨i, hi, rfl⟩
    unfold spannedBlocks blockSize at hi
    refine ⟨max offset ((offset / blockSize + i) * blockSize), ?_, ?_, ?_, ?_⟩
    · rw [hposition]
      exact Nat.le_max_left _ _
    · unfold blockSize
      omega
    · unfold blockSize
      omega
    · unfold blockSize
      omega

theorem run_seek_start {r : VerifiedReader} (h : offset < 2 ^ 63) :
    (seek checks (.start offset)).run r = .ok offset { r with position := offset } := by
  have hnew : newPos checks r (.start offset) = .ok (offset : Int) := by
    rw [newPos, asI64_eq h]
  rw [run_seek, hnew]
  dsimp only
  rw [if_neg (Int.natCast_nonneg offset).not_gt, Int.toNat_natCast]

/-- A range read is a read at the offset. -/
theorem readRange_eq {v : VerifiedFS sha256 τ} {r r' : VerifiedReader}
    (hreader : v.openReader path = .ok r)
    (hseek : (seek checks (.start offset)).run r = .ok offset r') :
    v.readRange checks path len offset =
      VerifiedFS.returned ((read sha256 (fun _ => contentAt v.inner path) len).run r') := by
  rw [VerifiedFS.readRange, hreader, Except.mapError, ok_bind, run_bind_of_ok hseek]

/-- A range read succeeds exactly if every block that it touches loads. -/
theorem readRange_ok_iff_allLoad {v : VerifiedFS sha256 τ} (hsmall : offset < 2 ^ 63)
    (hreader : v.openReader path = .ok (new v.layer f)) :
    (∃ d, v.readRange checks path len offset = .ok d) ↔
      AllLoad (plainCheck sha256) (fun _ => contentAt v.inner path)
        { new v.layer f with position := offset } len := by
  have hkept : Kept { new v.layer f with position := offset } := by
    intro i d hcurrent
    cases hcurrent
  rw [readRange_eq hreader (run_seek_start hsmall), read_eq_readBy]
  obtain ⟨hload, out, r', hrun, -⟩ | ⟨idx, e, r', hfails, hrun, -⟩ :=
    readBy_cases (plainCheck sha256) (fun _ => contentAt v.inner path) len hkept
  · rw [hrun]
    exact iff_of_true ⟨out, rfl⟩ hload
  · rw [hrun]
    refine iff_of_false ?_ fun hload => hload.not_failsAt hfails
    rintro ⟨d, hd⟩
    cases hd

/-- The verified reader compares recorded blocks. -/
theorem readRange_ok_iff {v : VerifiedFS sha256 τ} (h : Pinned sha256 data c (new v.layer f))
    (hfind : v.layer.manifest.files.find? (·.path = path) = some f)
    (hcontent : contentAt v.inner path = .ok c') (hlen : 0 < len) (hinside : offset + len ≤ c.length)
    (hlarge : c.length < 2 ^ 63) (htrust : Trusted sha256 data f fun _ => contentAt v.inner path) :
    (∃ d, v.readRange checks path len offset = .ok d) ↔
      SameRecorded c c' (offset / blockSize * blockSize)
        ((offset / blockSize + spannedBlocks len offset) * blockSize) := by
  obtain ⟨inner, hopen, -⟩ := except_bind_eq_ok.mp hcontent
  have hreader : v.openReader path = .ok (new v.layer f) := by
    rw [VerifiedFS.openReader, hopen, ok_bind, hfind]
    rfl
  have hsize : f.size = c.length := h.size
  -- a fresh reader loads each block that it touches
  have hblock : ∀ idx, Touches { new v.layer f with position := offset } len idx →
      ((∃ d, blockFor (plainCheck sha256) (fun _ => contentAt v.inner path)
        { new v.layer f with position := offset } idx = .ok d) ↔
      slice c' (idx * blockSize) (block c idx).length = block c idx) := by
    intro idx htouches
    rw [blockFor_eq_fetch fun _ hcurrent => Option.some_ne_none _ hcurrent.symm]
    apply fetch_plainCheck_iff h _ hcontent htrust
    obtain ⟨p, -, -, hlt, rfl⟩ := htouches
    have := Nat.div_mul_le_self p blockSize
    change p < f.size at hlt
    omega
  have hspanned : ∀ idx, Touches { new v.layer f with position := offset } len idx ↔ _ :=
    fun idx => touches_iff_spanned rfl hlen (by rw [← hsize] at hinside; exact hinside)
  rw [readRange_ok_iff_allLoad (by omega) hreader, ← sameRecorded_blocks_iff]
  constructor
  · intro hload i hi
    have htouches := (hspanned _).mpr ⟨i, hi, rfl⟩
    exact (hblock _ htouches).mp (hload _ htouches)
  · intro hsame idx htouches
    obtain ⟨i, hi, rfl⟩ := (hspanned idx).mp htouches
    exact (hblock _ htouches).mpr (hsame i hi)

/-! ### Files that cannot be read, and paths that are not there -/

theorem spannedBlocks_pos (hlen : 0 < len) (offset : Nat) : 0 < spannedBlocks len offset := by
  unfold spannedBlocks blockSize
  omega

theorem not_verifies_of_unreadable {e : VfsError} (hlen : 0 < len)
    (hfind : layer.manifest.files.find? (·.path = path) = some f)
    (hcontent : contentAt dir path = .error e) :
    ¬ Returns (verifyFileBlocks sha256 layer false dir gives path len offset) cache := by
  rw [verifyFileBlocks_returns_iff hfind]
  intro hpasses
  rcases hpasses 0 (spannedBlocks_pos hlen offset) with hskipped | ⟨buf, hread, -⟩
  · exact Bool.false_ne_true hskipped
  · rw [readRawBlock, hcontent] at hread
    cases hread

theorem not_reads_of_unreadable {v : VerifiedFS sha256 τ} {e : VfsError} (hlen : 0 < len)
    (hinside : offset + len ≤ f.size) (hlarge : f.size < 2 ^ 63)
    (hfind : v.layer.manifest.files.find? (·.path = path) = some f)
    (hcontent : contentAt v.inner path = .error e) :
    ¬ ∃ d, v.readRange checks path len offset = .ok d := by
  cases hopen : FileSystem.openFile v.inner path with
  | error e' =>
    rintro ⟨d, hd⟩
    rw [VerifiedFS.readRange, VerifiedFS.openReader, hopen] at hd
    cases hd
  | ok inner =>
    have hreader : v.openReader path = .ok (new v.layer f) := by
      rw [VerifiedFS.openReader, hopen, ok_bind, hfind]
      rfl
    rw [readRange_ok_iff_allLoad (by omega) hreader]
    intro hload
    have htouches : Touches { new v.layer f with position := offset } len
        (offset / blockSize + 0) :=
      (touches_iff_spanned rfl hlen hinside).mpr ⟨0, spannedBlocks_pos hlen offset, rfl⟩
    obtain ⟨d, hd⟩ := hload _ htouches
    rw [blockFor_eq_fetch fun _ hcurrent => Option.some_ne_none _ hcurrent.symm, fetch, hcontent]
      at hd
    cases hd

/-! ### When the two agree -/

/-- On a file of the manifest a range passes the check exactly if it can be read; a path that
is not in the manifest passes neither. -/
def Agree (sha256 : Bytes → Hash256) (checks : Bool) (layer : VerifiedLayer) (dir : τ)
    (gives : Nat → Nat → Nat) (cache : BlockCache) (path : Path) (len offset : Nat) : Prop :=
  (∀ f, layer.manifest.files.find? (·.path = path) = some f → offset + len ≤ f.size →
    (Returns (verifyFileBlocks sha256 layer false dir gives path len offset) cache ↔
      ∃ d, (⟨dir, layer⟩ : VerifiedFS sha256 τ).readRange checks path len offset = .ok d)) ∧
  (layer.manifest.files.find? (·.path = path) = none →
    ¬ Returns (verifyFileBlocks sha256 layer false dir gives path len offset) cache ∧
      ¬ ∃ d, (⟨dir, layer⟩ : VerifiedFS sha256 τ).readRange checks path len offset = .ok d)

/-- Over the blocks of the range the current file is neither cut off where the recorded one has
zeros, nor goes on behind it with another byte. -/
def SameEnd (pinned : σ) (dir : τ) (path : Path) (len offset : Nat) : Prop :=
  ∀ c c', contentAt pinned path = .ok c → contentAt dir path = .ok c' →
    ¬ CutOff c c' (offset / blockSize * blockSize)
      ((offset / blockSize + spannedBlocks len offset) * blockSize) ∧
    ¬ Overgrown c c' (offset / blockSize * blockSize)
      ((offset / blockSize + spannedBlocks len offset) * blockSize)

/-- No collision among what was hashed for the layer and what is hashed to check the blocks of
the file as it is, nor a buffer with the hash that stands for padding. -/
def PathTrusted (sha256 : Bytes → Hash256) (frames : Nat) (pinned : σ) (dir : τ) (path : Path) :
    Prop :=
  ∀ data files, layerData sha256 frames pinned = .ok (data, files) → ∀ f ∈ files, f.path = path →
    ∀ c, contentAt dir path = .ok c → ∀ idx, idx * blockSize < f.size →
      ∀ buf ∈ [block c idx, loaded f idx c],
        CollisionFree sha256 (hashedByBuild sha256 data ++
          hashedByVerify sha256 (build sha256 data) (f.blockRange.1 + idx) buf) ∧
        hashBlock sha256 buf ≠ zeroHash

/-- On a file of the manifest, both paths compare the current content with the recorded one. -/
theorem verifies_iff_reads_iff (layer : VerifiedLayer) (dir : τ) (checks : Bool)
    (cache : BlockCache) (offset : Nat) {pinned : σ} (htree : layer.tree = build sha256 data)
    (hroot : layer.rootHash = rootHash (build sha256 data)) (hreject : layer.onFailure = .reject)
    (hfind : layer.manifest.files.find? (·.path = path) = some f)
    (hplaced : MerkleTree.Placed data f c)
    (hpinned : contentAt pinned path = .ok c) (hsize : f.size = c.length)
    (hlarge : f.size < 2 ^ 63) (hfull : ∀ i k, blockSize ≤ gives i k) (hlen : 0 < len)
    (hinside : offset + len ≤ f.size)
    (htrust : ∀ c', contentAt dir path = .ok c' → ∀ idx, idx * blockSize < f.size →
      ∀ buf ∈ [block c' idx, loaded f idx c'],
        CollisionFree sha256 (hashedByBuild sha256 data ++
          hashedByVerify sha256 (build sha256 data) (f.blockRange.1 + idx) buf) ∧
        hashBlock sha256 buf ≠ zeroHash) :
    (Returns (verifyFileBlocks sha256 layer false dir gives path len offset) cache ↔
      ∃ d, (⟨dir, layer⟩ : VerifiedFS sha256 τ).readRange checks path len offset = .ok d) ↔
    SameEnd pinned dir path len offset := by
  cases hcontent : contentAt dir path with
  | error e =>
    -- neither path gets a byte of a file that cannot be read
    have hverifies : ¬ Returns (verifyFileBlocks sha256 layer false dir gives path len offset) cache :=
      not_verifies_of_unreadable hlen hfind hcontent
    have hreads : ¬ ∃ d, (⟨dir, layer⟩ : VerifiedFS sha256 τ).readRange checks path len offset =
        .ok d := not_reads_of_unreadable hlen hinside hlarge hfind hcontent
    refine iff_of_true (iff_of_false hverifies hreads) ?_
    intro c₁ c' _ hc'
    rw [hcontent] at hc'
    cases hc'
  | ok c' =>
    have htrust' := htrust c' hcontent
    have hreader : Pinned sha256 data c (new layer f) :=
      ⟨htree, hroot, hreject, hsize, hplaced, fun i d hcurrent => by cases hcurrent⟩
    have hloaded : Trusted sha256 data f fun _ => contentAt dir path := by
      intro idx content hidx hbacking
      obtain rfl := Except.ok.inj (hcontent.symm.trans hbacking)
      exact htrust' idx hidx _ (by simp)
    have hverifies : Returns (verifyFileBlocks sha256 layer false dir gives path len offset) cache ↔
        _ := verifyFileBlocks_returns_iff_samePadded htree hroot hreject hfind hplaced hcontent hfull
      (hsize ▸ hinside) fun idx hidx => htrust' idx (hsize ▸ hidx) _ (by simp)
    have hreads : (∃ d, (⟨dir, layer⟩ : VerifiedFS sha256 τ).readRange checks path len offset =
        .ok d) ↔ _ :=
      readRange_ok_iff hreader hfind hcontent hlen (hsize ▸ hinside) (hsize ▸ hlarge) hloaded
    have hends : SameEnd pinned dir path len offset ↔
        ¬ CutOff c c' (offset / blockSize * blockSize)
          ((offset / blockSize + spannedBlocks len offset) * blockSize) ∧
        ¬ Overgrown c c' (offset / blockSize * blockSize)
          ((offset / blockSize + spannedBlocks len offset) * blockSize) := by
      constructor
      · exact fun h => h c c' hpinned hcontent
      · intro h c₁ c₂ hc₁ hc₂
        obtain rfl := Except.ok.inj (hpinned.symm.trans hc₁)
        obtain rfl := Except.ok.inj (hcontent.symm.trans hc₂)
        exact h
    -- one path compares the padded blocks, the other the recorded part of each
    rw [hverifies, hreads, hends]
    apply samePadded_iff_sameRecorded_iff
    rw [hsize] at hinside
    unfold spannedBlocks blockSize
    omega

/-- The two read paths agree on a range exactly if the path is in the manifest, and where the
range lies in the recorded file, the current one ends as it did. -/
theorem readers_agree_iff {frames : Nat} {pinned : σ} {tree : MerkleTree} {mf : LayerManifest}
    (hbuild : buildFromVfs sha256 frames pinned = .ok (tree, mf))
    (hhonest : ∀ f ∈ mf.files, ∀ md c, metadata pinned f.path = .ok md →
      contentAt pinned f.path = .ok c → md.len = c.length)
    -- each content was read into a `Vec`
    (hlarge : ∀ f ∈ mf.files, f.size < 2 ^ 63)
    (dir : τ) (checks : Bool) (hfull : ∀ i k, blockSize ≤ gives i k) (cache : BlockCache)
    (hlen : 0 < len) (htrust : PathTrusted sha256 frames pinned dir path) :
    Agree sha256 checks ⟨tree, mf, tree.rootHash, .reject⟩ dir gives cache path len offset ↔
      ∃ f, mf.files.find? (·.path = path) = some f ∧
        (offset + len ≤ f.size → SameEnd pinned dir path len offset) := by
  obtain ⟨⟨data, entries⟩, hdata, hbuild⟩ := except_bind_eq_ok.mp hbuild
  obtain ⟨rfl, hmanifest⟩ := Prod.mk.inj (Except.ok.inj hbuild)
  obtain rfl : mf.files = entries := by rw [← hmanifest]
  by_cases hlisted : ∃ f, mf.files.find? (·.path = path) = some f
  · obtain ⟨f, hfind⟩ := hlisted
    have hf := List.mem_of_find?_eq_some hfind
    have hpath : f.path = path := by simpa using List.find?_some hfind
    obtain ⟨md, c, hmd, hc, hsize, hplaced⟩ := placed_of_mem hdata hf
    rw [hhonest f hf md c hmd hc] at hsize
    rw [hpath] at hc
    have hagree := verifies_iff_reads_iff
      ⟨build sha256 data, mf, rootHash (build sha256 data), .reject⟩ dir checks cache offset
      rfl rfl rfl hfind hplaced hc hsize (hlarge f hf) hfull hlen
    have hends := htrust data mf.files hdata f hf hpath
    constructor
    · rintro ⟨hsame, -⟩
      exact ⟨f, hfind, fun hinside => (hagree hinside hends).mp (hsame f hfind hinside)⟩
    · rintro ⟨g, hg, hsame⟩
      obtain rfl := Option.some.inj (hfind.symm.trans hg)
      refine ⟨?_, fun hmissing => absurd (hfind.symm.trans hmissing) (Option.some_ne_none f)⟩
      intro g hg hinside
      obtain rfl := Option.some.inj (hfind.symm.trans hg)
      exact (hagree hinside hends).mpr (hsame hinside)
  · have hmissing : mf.files.find? (·.path = path) = none := by
      cases hfind : mf.files.find? (·.path = path) with
      | none => rfl
      | some f => exact absurd ⟨f, hfind⟩ hlisted
    refine iff_of_false ?_ ?_
    · rintro ⟨-, hrejected⟩
      exact (hrejected hmissing).1 (verifyFileBlocks_returns_of_missing hmissing)
    · rintro ⟨f, hfind, -⟩
      exact hlisted ⟨f, hfind⟩

/-! ### A file that grew -/

/-- SHA-256 on the inputs of the layer, and on the padded block of the file that grew. -/
def grownSha256 (x : Bytes) : Hash256 :=
  if x.length = blockSize ∧ x.take 2 = [1, 2] then twoByteBlockDigest else oneByteSha256 x

/-- The recorded byte of the file can be read, and does not verify; of a path that was never
recorded every block verifies. -/
theorem readers_disagree :
    buildFromVfs grownSha256 8 oneByteLayer = .ok (oneBytePinned.tree, oneByteManifest) ∧
      ¬ Returns (verifyFileBlocks grownSha256 oneBytePinned false twoByteLayer (fun _ _ => blockSize)
        ["f".toList] 1 0) (BlockCache.new 1) ∧
      (⟨twoByteLayer, oneBytePinned⟩ : VerifiedFS grownSha256 Tree).readRange true ["f".toList] 1 0 =
        .ok [1] ∧
      Returns (verifyFileBlocks grownSha256 oneBytePinned false twoByteLayer (fun _ _ => blockSize)
        ["g".toList] 1 0) (BlockCache.new 1) := by
  refine ⟨by decide +kernel, ?_, by decide +kernel, verifyFileBlocks_returns_of_missing (by decide)⟩
  have hfind : oneBytePinned.manifest.files.find? (·.path = ["f".toList]) = some oneByteEntry := by
    decide
  have hread : readRawBlock twoByteLayer ["f".toList] (fun _ => blockSize) 0 = .ok [1, 2] := by
    decide +kernel
  rw [verifyFileBlocks_returns_iff hfind]
  intro hpasses
  rcases hpasses 0 (by decide) with hcached | ⟨buf, hbuf, hpass⟩
  · exact Bool.false_ne_true hcached
  · obtain rfl := Except.ok.inj (hread.symm.trans hbuf)
    rcases hpass with haccepted | hwarn
    · exact absurd haccepted (by decide +kernel)
    · exact absurd hwarn (by decide)

theorem readers_agree_iff_other :
    Agree oneByteSha256 true oneBytePinned otherLayer (fun _ _ => blockSize) (BlockCache.new 1)
      ["f".toList] 1 0 := by
  have hscan : ScanTrusted oneByteSha256 8 oneByteLayer otherLayer :=
    scanTrusted_oneByte (c := [2]) rfl (by decide) (by decide) (Or.inr rfl)
  have htrust : PathTrusted oneByteSha256 8 oneByteLayer otherLayer ["f".toList] := by
    intro data files hdata f hf _ c hc idx hidx buf hbuf
    obtain ⟨rfl, rfl⟩ := Prod.mk.inj (Except.ok.inj (layerData_oneByte.symm.trans hdata))
    obtain rfl := List.mem_singleton.mp hf
    obtain rfl : [2] = c := Except.ok.inj hc
    obtain rfl : idx = 0 := by
      change idx * 4096 < 1 at hidx
      omega
    have hblock : buf = block [2] 0 := by
      rcases List.mem_pair.mp hbuf with rfl | rfl
      · rfl
      · decide
    rw [hblock]
    exact hscan _ _ layerData_oneByte oneByteEntry List.mem_cons_self [2] rfl 0 (by decide)
  refine (readers_agree_iff buildFromVfs_oneByte ?_ ?_ otherLayer true (fun _ _ => Nat.le_refl _)
    (BlockCache.new 1) (by decide) htrust).mpr ⟨oneByteEntry, by decide, fun _ => ?_⟩
  · intro f hf md c hmd hc
    obtain rfl := List.mem_singleton.mp hf
    obtain rfl := Except.ok.inj hmd
    obtain rfl : [1] = c := Except.ok.inj hc
    rfl
  · intro f hf
    obtain rfl := List.mem_singleton.mp hf
    decide
  · intro c c' hc hc'
    obtain rfl : [1] = c := Except.ok.inj hc
    obtain rfl : [2] = c' := Except.ok.inj hc'
    -- the first byte is another one, for the one path as for the other
    constructor
    · rintro ⟨hpadded, -⟩
      exact absurd (hpadded 0 (by decide) (by decide)) (by decide)
    · rintro ⟨hrecorded, -⟩
      exact absurd (hrecorded 0 (by decide) (by decide)) (by decide)

end Rspacefs
