import Rspacefs.Lib.EState
import Rspacefs.Lib.Run
import Rspacefs.Verity.Manifest
import Rspacefs.Verity.TreeFile
import Rspacefs.Vfs.Tree

/-!
# The verified reader

`VerifiedReader` of `rspacefs-verity/src/verity.rs`: `Read` and `Seek` over a file of a
verified layer. It keeps one block, and checks each block against the Merkle tree when it
loads it. What the backing file holds is given for each load anew, so it may change at
any time.

The tree is one that `build` made, over which `verify_block` does not panic
(`MerkleTree.tryVerifyBlock_eq`). Loading also marks the block in the layer's cache of
verified blocks, which the reader does not consult.

## Main definitions

* `VerifiedReader`, `loadBlock`, `readLoop`, `seek` — the source's reader
* `Call`, `outcomes` — sequences of calls and their answers

## Main results

* `loadBlock_spec` — what is loaded is the block of the pinned content
* `readLoop_spec` — a read gives the slice of the pinned content, or fails
* `reader_refines_cursor` — every sequence of calls is one on a cursor over that content
-/

namespace Rspacefs

open Lib MerkleTree

/-- Action to take when verification fails. -/
inductive OnFailure
  | reject
  | warn
  deriving DecidableEq, Repr

/-- `io::Error`, or the end of the process. -/
inductive IoError
  /-- `verity: block {globalBlock} of {path} failed`. -/
  | invalidData (globalBlock : Nat) (path : Path)
  /-- `seek before start`. -/
  | invalidInput
  | unexpectedEof
  | inner (e : VfsError)
  | panic (p : Panic)
  deriving DecidableEq, Repr

/-- What a verified layer pins. -/
structure VerifiedLayer where
  tree : MerkleTree
  manifest : LayerManifest
  rootHash : Hash256
  onFailure : OnFailure

/-- `Seek + Read` over a verity-protected file. -/
structure VerifiedReader where
  layer : VerifiedLayer
  entry : FileEntry
  position : Nat
  /-- The block read last: its index within the file, and its data. -/
  current : Option (Nat × Bytes)

/-- A method of the reader. -/
abbrev ReaderM (α : Type) := EStateM IoError VerifiedReader α

/-- What the backing file holds when a block is loaded. -/
abbrev Backing := Nat → VfsResult Bytes

namespace VerifiedReader

def new (layer : VerifiedLayer) (entry : FileEntry) : VerifiedReader where
  layer := layer
  entry := entry
  position := 0
  current := none

variable (sha256 : Bytes → Hash256)

/-- `seek` and `read_exact` on the backing file. -/
def readExact (content : VfsResult Bytes) (start len : Nat) : Except IoError Bytes :=
  match content with
  | .error e => .error (.inner e)
  | .ok data => if start + len ≤ data.length ∨ len = 0 then .ok (slice data start len)
    else .error .unexpectedEof

/-- Verify against the tree; a block that fails is rejected or served with a warning. -/
def check (r : VerifiedReader) (globalBlock : Nat) (blockData : Bytes) : Except IoError Unit :=
  if verifyBlock sha256 r.layer.tree globalBlock blockData r.layer.rootHash then .ok ()
  else match r.layer.onFailure with
    | .reject => .error (.invalidData globalBlock r.entry.path)
    | .warn => .ok ()

/-- How much of a block lies within the size of the file. -/
def toRead (entry : FileEntry) (blockIdx : Nat) : Nat :=
  min (entry.size - blockIdx * blockSize) blockSize

/-- Load a block of the file, verify it, and keep it. -/
def loadBlock (backing : Backing) (blockIdx : Nat) : ReaderM Bytes := do
  let r ← get
  match r.current.filter (·.1 = blockIdx) with
  | some (_, data) => return data
  | none =>
    let data ← ask fun _ =>
      readExact (backing blockIdx) (blockIdx * blockSize) (toRead r.entry blockIdx)
    ask fun _ => r.check sha256 (r.entry.blockRange.1 + blockIdx) data
    set { r with current := some (blockIdx, data) }
    return data

/-- The loop of `read`, with `want` bytes of the buffer left to fill. -/
def readLoop (backing : Backing) (want : Nat) : ReaderM Bytes := do
  let r ← get
  if want = 0 ∨ r.entry.size ≤ r.position then return []
  else
    let block ← loadBlock sha256 backing (r.position / blockSize)
    let offset := r.position % blockSize
    let copy := min (block.length - offset) want
    -- an empty block also ends the loop
    if _h : copy = 0 then return []
    else
      modify fun r => { r with position := r.position + copy }
      let rest ← readLoop backing (want - copy)
      return slice block offset copy ++ rest
termination_by want
decreasing_by omega

/-- `read` into a buffer of the given size. -/
def read (backing : Backing) (size : Nat) : ReaderM Bytes := do
  let r ← get
  if r.entry.size ≤ r.position ∨ size = 0 then return []
  else readLoop sha256 backing size

/-- `as i64`. -/
def asI64 (n : Nat) : Int := Int.bmod n (2 ^ 64)

/-- The sum of two `i64`: out of range it panics in a build with overflow checks, and
wraps around in one without. -/
def i64 (checks : Bool) (exact : Int) : Except IoError Int :=
  if -2 ^ 63 ≤ exact ∧ exact < 2 ^ 63 then .ok exact
  else if checks then .error (.panic .overflow)
  else .ok (Int.bmod exact (2 ^ 64))

/-- The position a seek computes. -/
def newPos (checks : Bool) (r : VerifiedReader) : SeekFrom → Except IoError Int
  | .start p => .ok (asI64 p)
  | .fromEnd d => i64 checks (asI64 r.entry.size + d)
  | .current d => i64 checks (asI64 r.position + d)

/-- `seek`. -/
def seek (checks : Bool) (pos : SeekFrom) : ReaderM Nat := do
  let r ← get
  let newPos ← ask fun _ => newPos checks r pos
  if newPos < 0 then throw .invalidInput
  else
    set { r with position := newPos.toNat }
    return newPos.toNat

/-! ### Sequences of calls -/

/-- A call on the reader. A read comes with what the backing file holds meanwhile. -/
inductive Call
  | seek (pos : SeekFrom)
  | read (size : Nat) (backing : Backing)

/-- The answer to a call. -/
def call (checks : Bool) : Call → ReaderM (Cursor.Reply UInt8)
  | .seek pos => .position <$> seek checks pos
  | .read size backing => .data <$> read sha256 backing size

/-- The answer, or that there is none. -/
def answer (checks : Bool) (r : VerifiedReader) (c : Call) : Cursor.Reply UInt8 :=
  match (call sha256 checks c).run r with
  | .ok reply _ => reply
  | .error _ _ => .failed

/-- The reader after a call. -/
def next (checks : Bool) (r : VerifiedReader) (c : Call) : VerifiedReader :=
  finalState (call sha256 checks c) r

/-! ### Loading a block -/

variable {sha256} {blob c data : Bytes} {r : VerifiedReader} {backing : Backing} {idx : Nat}

/-- The backing file is as it was when the manifest was made. -/
def Untampered (c : Bytes) (backing : Backing) : Prop := ∀ idx, backing idx = .ok c

/-- What is loaded for a block. -/
def loaded (entry : FileEntry) (idx : Nat) (content : Bytes) : Bytes :=
  slice content (idx * blockSize) (toRead entry idx)

/-- No collision among what `build` hashes and what is hashed to verify the blocks that
this backing gives, nor an input with the hash of no block. -/
def Trusted (sha256 : Bytes → Hash256) (blob : Bytes) (entry : FileEntry) (backing : Backing) :
    Prop :=
  ∀ idx content, idx * blockSize < entry.size → backing idx = .ok content →
    CollisionFree sha256 (hashedByBuild sha256 blob ++
      hashedByVerify sha256 (build sha256 blob) (entry.blockRange.1 + idx)
        (loaded entry idx content)) ∧
    hashBlock sha256 (loaded entry idx content) ≠ zeroHash

/-- A reader over a file with content `c` in a layer with data `blob`. -/
structure Pinned (sha256 : Bytes → Hash256) (blob c : Bytes) (r : VerifiedReader) : Prop where
  tree : r.layer.tree = build sha256 blob
  root : r.layer.rootHash = rootHash (build sha256 blob)
  reject : r.layer.onFailure = .reject
  size : r.entry.size = c.length
  placed : MerkleTree.Placed blob r.entry c
  current : ∀ i data, r.current = some (i, data) → data = block c i

theorem Pinned.toRead (h : Pinned sha256 blob c r) (idx : Nat) :
    toRead r.entry idx = (block c idx).length := by
  rw [VerifiedReader.toRead, h.size, block_eq_slice, length_slice, Nat.min_comm]

/-- A block is accepted exactly if it is the block of the pinned content. -/
theorem Pinned.check_iff (h : Pinned sha256 blob c r) (hidx : idx * blockSize < c.length)
    (hlen : data.length = (block c idx).length)
    (hfree : CollisionFree sha256 (hashedByBuild sha256 blob ++
      hashedByVerify sha256 (build sha256 blob) (r.entry.blockRange.1 + idx) data))
    (hzero : hashBlock sha256 data ≠ zeroHash) :
    r.check sha256 (r.entry.blockRange.1 + idx) data = .ok () ↔ data = block c idx := by
  obtain ⟨hlt, hblock⟩ := block_placed h.placed hidx
  have hpadded : r.entry.blockRange.1 + idx < (build sha256 blob).paddedLeafCount :=
    hlt.trans_le (leafCount_le sha256 blob)
  have hverify : verifyBlock sha256 r.layer.tree (r.entry.blockRange.1 + idx) data
      r.layer.rootHash = true ↔ data = block c idx := by
    rw [h.tree, h.root, verifyBlock, if_neg (Nat.not_le.mpr hpadded), decide_eq_true_iff,
      climb_eq_rootHash_iff hfree hzero hpadded, hblock]
    exact ⟨fun h => zeroPad_inj hlen h.2, fun h => ⟨hlt, by rw [h]⟩⟩
  rw [← hverify, check, h.reject]
  cases verifyBlock sha256 r.layer.tree (r.entry.blockRange.1 + idx) data r.layer.rootHash with
  | true => simp
  | false => simp

theorem readExact_eq_ok {content : VfsResult Bytes} {start len : Nat}
    (h : readExact content start len = .ok data) :
    ∃ bytes, content = .ok bytes ∧ data = slice bytes start len ∧ data.length = len := by
  unfold readExact at h
  cases content with
  | error e => cases h
  | ok bytes =>
    dsimp only at h
    split at h
    · rename_i hroom
      obtain rfl := Except.ok.inj h
      exact ⟨bytes, rfl, rfl, by rw [length_slice]; omega⟩
    · cases h

/-- Reading a block of the pinned content. -/
theorem Pinned.readExact_content (h : Pinned sha256 blob c r) :
    readExact (.ok c) (idx * blockSize) (VerifiedReader.toRead r.entry idx) = .ok (block c idx) := by
  have hlen := h.toRead idx
  rw [block_eq_slice, length_slice] at hlen
  rw [readExact, if_pos (by omega), hlen, block_eq_slice]
  exact congrArg Except.ok slice_min_length

/-- What is loaded is the block of the pinned content, and only a backing that was
tampered with can fail. -/
theorem loadBlock_spec (h : Pinned sha256 blob c r) (hidx : idx * blockSize < c.length)
    (htrust : Trusted sha256 blob r.entry backing) :
    Triple (· = r) (loadBlock sha256 backing idx)
      (fun data r' => data = block c idx ∧ Pinned sha256 blob c r' ∧ r'.position = r.position ∧
        r'.entry = r.entry)
      (fun r' => r' = r ∧ ¬ Untampered c backing) := by
  intro r₀ hr₀
  subst hr₀
  change Ends ((match r₀.current.filter (·.1 = idx) with
    | some (_, data) => Pure.pure data
    | none => _ : ReaderM Bytes).run r₀) _ _
  cases hkept : r₀.current.filter (·.1 = idx) with
  | some kept =>
    -- the block is the one read last
    obtain ⟨hcurrent, hkept⟩ := Option.filter_eq_some_iff.mp hkept
    obtain rfl := of_decide_eq_true hkept
    exact ⟨h.current _ _ hcurrent, h, rfl, rfl⟩
  | none =>
    have hexact : Untampered c backing → readExact (backing idx) (idx * blockSize)
        (VerifiedReader.toRead r₀.entry idx) = .ok (block c idx) := fun hsame => by
      rw [hsame idx, h.readExact_content]
    refine Triple.ask_cases ?_ ?_ r₀ rfl
    · intro e herr
      refine ⟨rfl, fun hsame => ?_⟩
      rw [hexact hsame] at herr
      cases herr
    · intro data hdata
      obtain ⟨content, hcontent, hslice, hlen⟩ := readExact_eq_ok hdata
      rw [h.toRead] at hlen
      obtain ⟨hfree, hzero⟩ := htrust idx content (by rw [h.size]; exact hidx) hcontent
      rw [loaded, ← hslice] at hfree hzero
      have hcheck := h.check_iff hidx hlen hfree hzero
      refine Triple.ask_cases ?_ ?_
      · intro e herr
        refine ⟨rfl, fun hsame => ?_⟩
        rw [hexact hsame, Except.ok.injEq] at hdata
        rw [hcheck.mpr hdata.symm] at herr
        cases herr
      · intro _ hok
        obtain rfl := hcheck.mp hok
        rintro _ rfl
        refine ⟨rfl, ⟨h.tree, h.root, h.reject, h.size, h.placed, ?_⟩, rfl, rfl⟩
        intro i d hd
        cases hd
        rfl

/-! ### Reading -/

/-- How a read leaves the reader. -/
structure After (sha256 : Bytes → Hash256) (blob c : Bytes) (r r' : VerifiedReader) : Prop where
  pinned : Pinned sha256 blob c r'
  entry : r'.entry = r.entry
  position_le : r'.position ≤ max r.position c.length

/-- A read gives the slice of the pinned content and moves behind it. It fails only over a
backing that was tampered with, and then stops somewhere on the way. -/
theorem readLoop_spec (want : Nat) (h : Pinned sha256 blob c r)
    (htrust : Trusted sha256 blob r.entry backing) :
    Triple (· = r) (readLoop sha256 backing want)
      (fun out r' => out = slice c r.position want ∧ After sha256 blob c r r' ∧
        r'.position = r.position + out.length)
      (fun r' => After sha256 blob c r r' ∧ r.position ≤ r'.position ∧
        r'.position ≤ r.position + want ∧ ¬ Untampered c backing) := by
  induction want using Nat.strongRecOn generalizing r with
  | _ want ih =>
    rw [readLoop]
    intro r₀ hr₀
    subst hr₀
    change Ends ((if want = 0 ∨ r₀.entry.size ≤ r₀.position then Pure.pure [] else _ :
      ReaderM Bytes).run r₀) _ _
    by_cases hstop : want = 0 ∨ r₀.entry.size ≤ r₀.position
    · rw [if_pos hstop]
      have hnil : slice c r₀.position want = [] := by
        rcases hstop with rfl | hend
        · exact slice_zero
        · exact slice_of_length_le (h.size ▸ hend)
      exact ⟨hnil.symm, ⟨h, rfl, Nat.le_max_left _ _⟩, rfl⟩
    · rw [if_neg hstop]
      rw [not_or, Nat.not_le, h.size] at hstop
      have hdiv := Nat.div_add_mod' r₀.position blockSize
      have hmod := Nat.mod_lt r₀.position blockSize_pos
      have hin : r₀.position / blockSize * blockSize < c.length := by omega
      have hload := loadBlock_spec h hin htrust
      refine Triple.bind_from (hload.weaken (fun _ h => h) (fun _ _ h => h) ?_) ?_ r₀ rfl
      · rintro _ ⟨rfl, htampered⟩
        exact ⟨⟨h, rfl, Nat.le_max_left _ _⟩, Nat.le_refl _, Nat.le_add_right _ _, htampered⟩
      · rintro block r₁ ⟨rfl, hpinned, hposition, hentry⟩
        -- the loop copies at least one byte, up to the end of the block
        have hlen : (MerkleTree.block c (r₀.position / blockSize)).length =
            min blockSize (c.length - r₀.position / blockSize * blockSize) := by
          rw [block_eq_slice, length_slice]
        dsimp only
        rw [dif_neg (by omega)]
        generalize hcopy : min ((MerkleTree.block c (r₀.position / blockSize)).length -
          r₀.position % blockSize) want = copy
        have hpiece : slice (MerkleTree.block c (r₀.position / blockSize))
            (r₀.position % blockSize) copy = slice c r₀.position copy := by
          rw [block_eq_slice, slice_slice (by omega), hdiv]
        have hpieceLen : (slice c r₀.position copy).length = copy := by
          rw [length_slice]
          omega
        refine Triple.bind (R := fun _ r => r = { r₁ with position := r₁.position + copy })
          (Triple.modify (by rintro _ rfl; rfl)) fun _ => ?_
        have hrest := ih (want - copy) (by omega)
          (r := { r₁ with position := r₁.position + copy })
          ⟨hpinned.tree, hpinned.root, hpinned.reject, hpinned.size, hpinned.placed,
            hpinned.current⟩ (hentry ▸ htrust)
        refine Triple.bind (hrest.weaken (fun _ h => h) (fun _ _ h => h) ?_) fun rest =>
          Triple.pure _ ?_
        · rintro r' ⟨⟨hp, he, hle⟩, hlo, hhi, htampered⟩
          dsimp only at he hle hlo hhi
          exact ⟨⟨hp, he.trans hentry, by omega⟩, by omega, by omega, htampered⟩
        · rintro r' ⟨rfl, ⟨hp, he, hle⟩, hpos⟩
          dsimp only at he hle hpos ⊢
          rw [hpiece, hposition, slice_append_slice, Nat.add_sub_cancel' (by omega)]
          refine ⟨rfl, ⟨hp, he.trans hentry, by omega⟩, ?_⟩
          rw [hpos, hposition, length_slice, length_slice]
          omega

theorem read_spec (size : Nat) (h : Pinned sha256 blob c r)
    (htrust : Trusted sha256 blob r.entry backing) :
    Triple (· = r) (read sha256 backing size)
      (fun out r' => out = slice c r.position size ∧ After sha256 blob c r r' ∧
        r'.position = r.position + out.length)
      (fun r' => After sha256 blob c r r' ∧ r.position ≤ r'.position ∧
        r'.position ≤ r.position + size ∧ ¬ Untampered c backing) := by
  intro r₀ hr₀
  subst hr₀
  change Ends ((if r₀.entry.size ≤ r₀.position ∨ size = 0 then Pure.pure [] else
    readLoop sha256 backing size : ReaderM Bytes).run r₀) _ _
  split
  · rename_i hstop
    have hnil : slice c r₀.position size = [] := by
      rcases hstop with hend | rfl
      · exact slice_of_length_le (h.size ▸ hend)
      · exact slice_zero
    exact ⟨hnil.symm, ⟨h, rfl, Nat.le_max_left _ _⟩, rfl⟩
  · exact readLoop_spec size h htrust r₀ rfl

/-! ### Seeking -/

theorem asI64_eq {n : Nat} (h : n < 2 ^ 63) : asI64 n = n :=
  Int.bmod_eq_of_le (by omega) (by omega)

theorem i64_eq {checks : Bool} {exact : Int} (hlo : -2 ^ 63 ≤ exact) (hhi : exact < 2 ^ 63) :
    i64 checks exact = .ok exact := by
  rw [i64, if_pos ⟨hlo, hhi⟩]

/-- A seek fails where its position is not computed or negative, and goes there otherwise. -/
theorem run_seek (checks : Bool) (pos : SeekFrom) (r : VerifiedReader) :
    (seek checks pos).run r = match newPos checks r pos with
      | .error e => .error e r
      | .ok q => if q < 0 then .error .invalidInput r else .ok q.toNat { r with position := q.toNat } := by
  have hask : (seek checks pos).run r = (ask (fun _ => newPos checks r pos) >>= fun q =>
      if q < 0 then throw .invalidInput
      else do
        set { r with position := q.toNat }
        return q.toNat : ReaderM Nat).run r := rfl
  rw [hask, EStateM.run_bind, run_ask]
  cases newPos checks r pos with
  | error e => rfl
  | ok q =>
    dsimp only
    split
    · rfl
    · rfl

/-- The position a seek leads to is in the range of `i64`. -/
def InRange (r : VerifiedReader) (pos : SeekFrom) : Prop :=
  -2 ^ 63 ≤ pos.target r.entry.size r.position ∧ pos.target r.entry.size r.position < 2 ^ 63

theorem newPos_eq (checks : Bool) {pos : SeekFrom} (hsize : r.entry.size < 2 ^ 63)
    (hposition : r.position < 2 ^ 63) (hrange : InRange r pos) :
    newPos checks r pos = .ok (pos.target r.entry.size r.position) := by
  obtain ⟨hlo, hhi⟩ := hrange
  cases pos with
  | start p =>
    simp only [SeekFrom.target] at hhi
    exact congrArg Except.ok (asI64_eq (by omega))
  | fromEnd d =>
    rw [newPos, asI64_eq hsize]
    exact i64_eq hlo hhi
  | current d =>
    rw [newPos, asI64_eq hposition]
    exact i64_eq hlo hhi

/-- A seek within the range leads where it says, unless that is before the start. -/
theorem seek_spec (checks : Bool) {pos : SeekFrom} (hsize : r.entry.size < 2 ^ 63)
    (hposition : r.position < 2 ^ 63) (hrange : InRange r pos) :
    Triple (· = r) (seek checks pos)
      (fun q r' => 0 ≤ pos.target r.entry.size r.position ∧
        q = (pos.target r.entry.size r.position).toNat ∧ r' = { r with position := q })
      (fun r' => pos.target r.entry.size r.position < 0 ∧ r' = r) := by
  rintro r rfl
  have hrun := run_seek checks pos r
  rw [newPos_eq checks hsize hposition hrange] at hrun
  dsimp only at hrun
  split at hrun
  · rename_i hneg
    rw [hrun]
    exact ⟨hneg, rfl⟩
  · rename_i hneg
    rw [hrun]
    exact ⟨Int.not_lt.mp hneg, rfl, rfl⟩

/-! ### Sequences of calls -/

/-- The call on a cursor over the pinned content. -/
def request (c : Bytes) : Call → Cursor.Request
  | .seek pos => .seek pos
  | .read size backing => .read size (¬ Untampered c backing)

/-- The calls with their answers. -/
def transcript (sha256 : Bytes → Hash256) (checks : Bool) (c : Bytes) :
    VerifiedReader → List Call → List (Cursor.Request × Cursor.Reply UInt8)
  | _, [] => []
  | r, k :: calls =>
    (request c k, answer sha256 checks r k) ::
      transcript sha256 checks c (next sha256 checks r k) calls

/-- A position that a call asks for is in the range of `i64`. -/
def Fits (r : VerifiedReader) : Call → Prop
  | .seek pos => InRange r pos
  | .read _ _ => True

/-- What `Trusted` asks of every backing that a call comes with. -/
def TrustedCall (sha256 : Bytes → Hash256) (blob : Bytes) (entry : FileEntry) : Call → Prop
  | .seek _ => True
  | .read _ backing => Trusted sha256 blob entry backing

/-- What a call that is described by a triple answers and leaves. -/
theorem answer_next {checks : Bool} {k : Call} {Q : Cursor.Reply UInt8 → VerifiedReader → Prop}
    {E : VerifiedReader → Prop} (h : Triple (· = r) (call sha256 checks k) Q E)
    {P : Cursor.Reply UInt8 → VerifiedReader → Prop} (hQ : ∀ reply r', Q reply r' → P reply r')
    (hE : ∀ r', E r' → P .failed r') :
    P (answer sha256 checks r k) (next sha256 checks r k) := by
  unfold answer next finalState
  cases hrun : (call sha256 checks k).run r with
  | ok reply r' => exact hQ _ _ (h.ok rfl hrun)
  | error e r' => exact hE _ (h.error rfl hrun)

/-- One call on the reader is one on the cursor. -/
theorem call_step {checks : Bool} {k : Call} (h : Pinned sha256 blob c r)
    (hlen : c.length < 2 ^ 63) (hposition : r.position < 2 ^ 63) (hfits : Fits r k)
    (htrust : TrustedCall sha256 blob r.entry k) :
    Cursor.Step c r.position (request c k) (answer sha256 checks r k)
        (next sha256 checks r k).position ∧
      Pinned sha256 blob c (next sha256 checks r k) ∧
      (next sha256 checks r k).entry = r.entry ∧
      (next sha256 checks r k).position < 2 ^ 63 := by
  cases k with
  | seek pos =>
    have hspec := seek_spec checks (h.size ▸ hlen) hposition hfits
    have hcall : Triple (· = r) (call sha256 checks (.seek pos)) (fun reply r' => ∃ q,
        reply = .position q ∧ 0 ≤ pos.target r.entry.size r.position ∧
        q = (pos.target r.entry.size r.position).toNat ∧ r' = { r with position := q })
        (fun r' => pos.target r.entry.size r.position < 0 ∧ r' = r) :=
      hspec.map fun q r' hq => ⟨q, rfl, hq⟩
    have hhi := hfits.2
    rw [h.size] at hcall hhi
    refine answer_next (P := fun reply r' => Cursor.Step c r.position (.seek pos) reply r'.position ∧
      Pinned sha256 blob c r' ∧ r'.entry = r.entry ∧ r'.position < 2 ^ 63) hcall ?_ ?_
    · rintro _ _ ⟨q, rfl, hpos, rfl, rfl⟩
      refine ⟨.seek hpos, ⟨h.tree, h.root, h.reject, h.size, h.placed, h.current⟩, rfl, ?_⟩
      dsimp only
      omega
    · rintro _ ⟨hneg, rfl⟩
      exact ⟨.seekBefore hneg, h, rfl, hposition⟩
  | read size backing =>
    have hcall : Triple (· = r) (call sha256 checks (.read size backing)) (fun reply r' =>
        reply = .data (slice c r.position size) ∧ After sha256 blob c r r' ∧
        r'.position = r.position + (slice c r.position size).length)
        (fun r' => After sha256 blob c r r' ∧ r.position ≤ r'.position ∧
          r'.position ≤ r.position + size ∧ ¬ Untampered c backing) :=
      (read_spec size h htrust).map fun out r' hout => by
        obtain ⟨rfl, hafter⟩ := hout
        exact ⟨rfl, hafter⟩
    refine answer_next (P := fun reply r' => Cursor.Step c r.position
      (.read size (¬ Untampered c backing)) reply r'.position ∧
      Pinned sha256 blob c r' ∧ r'.entry = r.entry ∧ r'.position < 2 ^ 63) hcall ?_ ?_
    · rintro _ r' ⟨rfl, hafter, hpos⟩
      have hle := hafter.position_le
      exact ⟨hpos ▸ .read, hafter.pinned, hafter.entry, by omega⟩
    · rintro r' ⟨hafter, hlo, hhi, htampered⟩
      have hle := hafter.position_le
      exact ⟨.readFailed htampered hlo hhi, hafter.pinned, hafter.entry, by omega⟩

/-- Every sequence of calls on the reader is one on the cursor. -/
theorem Pinned.trace {checks : Bool} {calls : List Call} (h : Pinned sha256 blob c r)
    (hlen : c.length < 2 ^ 63) (hposition : r.position < 2 ^ 63)
    (hfits : EachStep (next sha256 checks) Fits r calls)
    (htrust : ∀ k ∈ calls, TrustedCall sha256 blob r.entry k) :
    Cursor.Trace c r.position (transcript sha256 checks c r calls) := by
  induction calls generalizing r with
  | nil => exact trivial
  | cons k calls ih =>
    obtain ⟨hk, hcalls⟩ := List.forall_mem_cons.mp htrust
    obtain ⟨hstep, hnext, hentry, hpos⟩ := call_step h hlen hposition hfits.1 hk
    exact ⟨_, hstep, ih hnext hpos hfits.2 (hentry ▸ hcalls)⟩

/-- A reader over a file of a layer whose manifest and tree `build_from_vfs` made refines
a cursor over the content the file had then: every read gives the slice of that content or
fails, and fails only over a backing that was tampered with. -/
theorem reader_refines_cursor {σ : Type} [FileSystem σ] (sha256 : Bytes → Hash256)
    (checks : Bool) (layer : σ) (frames : Nat) (tree : MerkleTree) (manifest : LayerManifest)
    (hbuild : buildFromVfs sha256 frames layer = .ok (tree, manifest)) (f : FileEntry)
    (hf : f ∈ manifest.files) (c : Bytes) (hc : contentAt layer f.path = .ok c)
    (hsize : ∀ md, metadata layer f.path = .ok md → md.len = c.length)
    (hlen : c.length < 2 ^ 63) (calls : List Call)
    (hfits : EachStep (next sha256 checks) Fits
      (new ⟨tree, manifest, tree.rootHash, .reject⟩ f) calls)
    (htrust : ∀ blob files, layerData sha256 frames layer = .ok (blob, files) →
      ∀ k ∈ calls, TrustedCall sha256 blob f k) :
    Cursor.Trace c 0 (transcript sha256 checks c
      (new ⟨tree, manifest, tree.rootHash, .reject⟩ f) calls) := by
  obtain ⟨⟨blob, files⟩, hdata, hbuild⟩ := except_bind_eq_ok.mp hbuild
  obtain ⟨rfl, hmanifest⟩ := Prod.mk.inj (Except.ok.inj hbuild)
  have hmem : f ∈ files := by rwa [← hmanifest] at hf
  obtain ⟨md, c', hmd, hc', hfsize, hplaced⟩ := placed_of_mem hdata hmem
  obtain rfl := Except.ok.inj (hc.symm.trans hc')
  have hpinned : Pinned sha256 blob c
      (new ⟨build sha256 blob, manifest, (build sha256 blob).rootHash, .reject⟩ f) :=
    ⟨rfl, rfl, rfl, hfsize.trans (hsize md hmd), hplaced, fun _ _ h => nomatch h⟩
  exact hpinned.trace hlen (Nat.two_pow_pos 63) hfits (htrust blob files hdata)

/-- A layer with one file. -/
def oneByteLayer : Tree := Tree.ofEntries [(["f".toList], .file [1])]

/-- The SHA-256 digest of the file. -/
def oneByteDigest : Hash256 :=
  ⟨[75, 245, 18, 47, 52, 69, 84, 197, 59, 222, 46, 187, 140, 210, 183, 227, 209, 96, 10, 214, 49,
    195, 133, 165, 215, 204, 226, 60, 119, 133, 69, 154], rfl⟩

/-- The SHA-256 digest of its metadata text, `f:1:0`. -/
def oneByteMetaDigest : Hash256 :=
  ⟨[31, 237, 251, 46, 79, 148, 149, 63, 24, 63, 106, 205, 74, 173, 243, 154, 126, 170, 189, 143,
    140, 74, 227, 219, 138, 110, 251, 107, 154, 8, 232, 21], rfl⟩

/-- The SHA-256 digest of `oneByteDigest` and `oneByteMetaDigest`. -/
def oneByteManifestDigest : Hash256 :=
  ⟨[250, 122, 101, 86, 114, 131, 42, 210, 130, 143, 148, 174, 44, 126, 30, 10, 77, 21, 137, 70,
    114, 134, 153, 224, 1, 196, 236, 217, 128, 248, 108, 221], rfl⟩

/-- The SHA-256 digest of another file of one byte, padded. -/
def otherByteDigest : Hash256 :=
  ⟨[44, 254, 11, 252, 9, 47, 22, 75, 155, 43, 173, 134, 87, 254, 239, 201, 252, 160, 11, 186,
    189, 15, 132, 235, 3, 131, 109, 59, 203, 138, 115, 40], rfl⟩

/-- SHA-256 on the inputs of the layer, and on the padded block of another byte. -/
def oneByteSha256 (x : Bytes) : Hash256 :=
  if x.length = 1 then oneByteDigest
  else if x.length = 5 then oneByteMetaDigest
  else if x.length = hashSize + hashSize then oneByteManifestDigest
  else if x.head? = some 1 then secondDigest
  else otherByteDigest

/-- The manifest entry of the file. -/
def oneByteEntry : FileEntry :=
  ⟨["f".toList], 1, oneByteDigest, oneByteMetaDigest, (0, 1), .file, none⟩

/-- The manifest of the layer. -/
def oneByteManifest : LayerManifest :=
  ⟨[oneByteEntry], oneByteManifestDigest, secondDigest, blockSize⟩

theorem layerData_oneByte :
    layerData oneByteSha256 8 oneByteLayer = .ok (alignBlocks [1], [oneByteEntry]) := by
  have hpaths : collectFiles oneByteLayer 8 [] = .ok [["f".toList]] := by decide +kernel
  have hend : (alignBlocks [1]).length / blockSize = 1 := by decide +kernel
  have hmeta : oneByteSha256 (utf8 (metaText ["f".toList] ⟨.file, 1⟩)) = oneByteMetaDigest := by
    decide +kernel
  have hmd : metadata oneByteLayer ["f".toList] = .ok ⟨.file, 1⟩ := rfl
  have hopen : openFile oneByteLayer ["f".toList] = .ok ⟨.ok [1]⟩ := rfl
  have hadd : addFile oneByteSha256 oneByteLayer ([], []) ["f".toList] = _ :=
    addFile_eq ([], []) hmd hopen rfl
  rw [layerData, hpaths, ok_bind]
  change (addFile oneByteSha256 oneByteLayer ([], []) ["f".toList] >>= Except.ok) = _
  rw [hadd, ok_bind, List.nil_append, hend, hmeta]
  rfl

theorem buildFromVfs_oneByte :
    buildFromVfs oneByteSha256 8 oneByteLayer = .ok (⟨[secondDigest], 1, 1⟩, oneByteManifest) := by
  decide +kernel

theorem build_oneByte : build oneByteSha256 (alignBlocks [1]) = ⟨[secondDigest], 1, 1⟩ := by
  have hbuild := buildFromVfs_oneByte
  rw [buildFromVfs, layerData_oneByte, ok_bind] at hbuild
  exact (Prod.mk.inj (Except.ok.inj hbuild)).1

theorem digests_oneByte :
    [zeroPad [1], zeroPad [2]].map oneByteSha256 = [secondDigest, otherByteDigest] := by
  decide +kernel

/-- The file itself and another byte in its place do not collide. -/
theorem trusted_oneByte {content : Bytes} (h : content = [1] ∨ content = [2]) :
    Trusted oneByteSha256 (alignBlocks [1]) oneByteEntry fun _ => .ok content := by
  rintro idx _ hidx ⟨⟩
  obtain rfl : idx = 0 := by
    change idx * 4096 < 1 at hidx
    omega
  have hloaded : loaded oneByteEntry 0 content = content := by
    rcases h with rfl | rfl <;> rfl
  obtain ⟨-, c, -, hc, -, hplaced⟩ := placed_of_mem layerData_oneByte (List.mem_singleton.mpr rfl)
  obtain rfl : [1] = c := Except.ok.inj hc
  have hblock := (block_placed (i := 0) hplaced (by decide)).2
  rw [show oneByteEntry.blockRange.1 + 0 = 0 from rfl, show block [1] 0 = [1] from rfl] at hblock
  have hbuild : hashedByBuild oneByteSha256 (alignBlocks [1]) = [zeroPad [1]] := by
    rw [hashedByBuild, build_oneByte, ← hblock]
    rfl
  have hinputs : zeroPad content ∈ [zeroPad [1], zeroPad [2]] := by
    rcases h with rfl | rfl
    · exact List.mem_cons_self
    · exact List.mem_cons_of_mem _ List.mem_cons_self
  rw [hloaded]
  refine collisionFree_and_ne_zeroHash (by rw [digests_oneByte]; decide)
    (by rw [digests_oneByte]; decide) (fun x hx => ?_) fun x hx => ?_
  · rw [hbuild] at hx
    rw [List.mem_singleton.mp hx]
    exact List.mem_cons_self
  · rw [build_oneByte, hashedByVerify_leaf content rfl] at hx
    rwa [List.mem_singleton.mp hx]

theorem reader_refines_cursor_oneByte :
    Cursor.Trace [1] 0 (transcript oneByteSha256 false [1]
      (new ⟨⟨[secondDigest], 1, 1⟩, oneByteManifest, secondDigest, .reject⟩ oneByteEntry)
      [.seek (.fromEnd (-1)), .read 2 fun _ => .ok [2], .read 2 fun _ => .ok [1]]) := by
  refine reader_refines_cursor oneByteSha256 false oneByteLayer 8 _ oneByteManifest
    buildFromVfs_oneByte oneByteEntry (List.mem_singleton.mpr rfl) [1] rfl ?_ (by decide) _ ?_ ?_
  · rintro _ ⟨⟩
    rfl
  · exact ⟨⟨by decide, by decide⟩, trivial, trivial, trivial⟩
  · intro blob files hdata
    obtain ⟨rfl, -⟩ := Prod.mk.inj (Except.ok.inj (layerData_oneByte.symm.trans hdata))
    rintro k hk
    rcases hk with _ | ⟨_, _ | ⟨_, _ | ⟨_, ⟨⟩⟩⟩⟩
    · exact trivial
    · exact trusted_oneByte (Or.inr rfl)
    · exact trusted_oneByte (Or.inl rfl)

end VerifiedReader

end Rspacefs
