import Rspacefs.Verity.Reader

/-!
# Verified reads that fail

`read` of `VerifiedReader` in `rspacefs-verity/src/verity.rs`, over a tree of any shape and
from any state that calls on the reader lead to. The loop moves the position behind each
block before it loads the next one, so a read that fails at a later block has moved it.

The verdict on a block is a parameter of the loop. The reader of the source takes the one of
`verify_block`, which may panic over a tree that was read from a file.

## Main definitions

* `loadBlockBy`, `readLoopBy`, `readBy` — the reader with any verdict on a block
* `tryCheck`, `tryRead` — the verdict of the source, and its `read`
* `Reached` — the states that calls lead to
* `FailsAt` — the first block of a read that does not load

## Main results

* `readBy_cases` — a read fails exactly at that block, and with the position there
* `read_consumes_nothing_iff` — when a failed read has consumed nothing
-/

namespace Rspacefs

open Lib MerkleTree

/-- An operation that may panic, within the reader. -/
def orPanic {α : Type} : Except Panic α → Except IoError α := Except.mapError IoError.panic

namespace VerifiedReader

/-! ### The reader with any verdict -/

/-- What accepts or refuses a block of a file: its index within the file, and its data. -/
abbrev Verdict := VerifiedLayer → FileEntry → Nat → Bytes → Except IoError Unit

variable (verdict : Verdict)

/-- Load a block of the file, ask for the verdict on it, and keep it. -/
def loadBlockBy (backing : Backing) (blockIdx : Nat) : ReaderM Bytes := do
  let r ← get
  match r.current.filter (·.1 = blockIdx) with
  | some (_, data) => return data
  | none =>
    let data ← ask fun _ =>
      readExact (backing blockIdx) (blockIdx * blockSize) (toRead r.entry blockIdx)
    ask fun _ => verdict r.layer r.entry blockIdx data
    set { r with current := some (blockIdx, data) }
    return data

/-- The loop of `read`, with `want` bytes of the buffer left to fill. -/
def readLoopBy (backing : Backing) (want : Nat) : ReaderM Bytes := do
  let r ← get
  if want = 0 ∨ r.entry.size ≤ r.position then return []
  else
    let block ← loadBlockBy verdict backing (r.position / blockSize)
    let offset := r.position % blockSize
    let copy := min (block.length - offset) want
    -- an empty block also ends the loop
    if _h : copy = 0 then return []
    else
      modify fun r => { r with position := r.position + copy }
      let rest ← readLoopBy backing (want - copy)
      return slice block offset copy ++ rest
termination_by want
decreasing_by omega

/-- `read` into a buffer of the given size. -/
def readBy (backing : Backing) (size : Nat) : ReaderM Bytes := do
  let r ← get
  if r.entry.size ≤ r.position ∨ size = 0 then return []
  else readLoopBy verdict backing size

/-! ### The verdict of the source -/

/-- Verify against a tree of any shape; a block that fails is rejected or served with a
warning. -/
def tryCheck (sha256 : Bytes → Hash256) (checks : Bool) : Verdict :=
  fun layer entry blockIdx blockData => do
    let globalBlock ← orPanic (usize checks (entry.blockRange.1 + blockIdx))
    let trusted ← orPanic
      (layer.tree.tryVerifyBlock sha256 checks globalBlock blockData layer.rootHash)
    if trusted then return ()
    else match layer.onFailure with
      | .reject => throw (.invalidData globalBlock entry.path)
      | .warn => return ()

/-- `read` over a tree of any shape. -/
def tryRead (sha256 : Bytes → Hash256) (checks : Bool) : Backing → Nat → ReaderM Bytes :=
  readBy (tryCheck sha256 checks)

/-- The states that calls on a new reader lead to. -/
inductive Reached (sha256 : Bytes → Hash256) (checks : Bool) : VerifiedReader → Prop
  | new (layer : VerifiedLayer) (entry : FileEntry) : Reached sha256 checks (new layer entry)
  | seek {r : VerifiedReader} (h : Reached sha256 checks r) (pos : SeekFrom) :
    Reached sha256 checks (finalState (seek checks pos) r)
  | read {r : VerifiedReader} (h : Reached sha256 checks r) (backing : Backing) (size : Nat) :
    Reached sha256 checks (finalState (tryRead sha256 checks backing size) r)

/-! ### The blocks of a read -/

/-- What loading a block of the file gives when it is not the one read last. -/
def fetch (layer : VerifiedLayer) (entry : FileEntry) (backing : Backing) (idx : Nat) :
    Except IoError Bytes := do
  let data ← readExact (backing idx) (idx * blockSize) (toRead entry idx)
  verdict layer entry idx data
  return data

/-- What a read that starts here gets for a block: at the position it may be the one read
last, and every later block is loaded. -/
def blockFor (backing : Backing) (r : VerifiedReader) (idx : Nat) : Except IoError Bytes :=
  match r.current.filter fun kept => kept.1 = idx ∧ idx = r.position / blockSize with
  | some (_, data) => .ok data
  | none => fetch verdict r.layer r.entry backing idx

/-- A byte of the block lies within a read of `want` bytes. -/
def Touches (r : VerifiedReader) (want idx : Nat) : Prop :=
  ∃ p, r.position ≤ p ∧ p < r.position + want ∧ p < r.entry.size ∧ p / blockSize = idx

/-- The first block of a read that does not load. -/
structure FailsAt (backing : Backing) (r : VerifiedReader) (want idx : Nat) (e : IoError) :
    Prop where
  touches : Touches r want idx
  before : ∀ j, r.position / blockSize ≤ j → j < idx → ∃ data, blockFor verdict backing r j = .ok data
  fails : blockFor verdict backing r idx = .error e

/-- Every block of a read loads. -/
def AllLoad (backing : Backing) (r : VerifiedReader) (want : Nat) : Prop :=
  ∀ idx, Touches r want idx → ∃ data, blockFor verdict backing r idx = .ok data

/-- The block read last is as long as its index says. -/
def Kept (r : VerifiedReader) : Prop :=
  ∀ i data, r.current = some (i, data) → data.length = toRead r.entry i

variable {verdict} {backing : Backing} {r r' : VerifiedReader} {idx want : Nat} {e : IoError}
  {data : Bytes}

theorem Touches.le (h : Touches r want idx) : r.position / blockSize ≤ idx := by
  obtain ⟨p, hle, -, -, rfl⟩ := h
  exact Nat.div_le_div_right hle

theorem FailsAt.unique {idx' : Nat} {e' : IoError} (h : FailsAt verdict backing r want idx e)
    (h' : FailsAt verdict backing r want idx' e') : idx = idx' ∧ e = e' := by
  have hidx : idx = idx' := by
    by_contra hne
    rcases Nat.lt_or_gt_of_ne hne with hlt | hlt
    · obtain ⟨data, hdata⟩ := h'.before idx h.touches.le hlt
      exact absurd (h.fails.symm.trans hdata) (by simp)
    · obtain ⟨data, hdata⟩ := h.before idx' h'.touches.le hlt
      exact absurd (h'.fails.symm.trans hdata) (by simp)
  subst hidx
  exact ⟨rfl, Except.error.inj (h.fails.symm.trans h'.fails)⟩

theorem AllLoad.not_failsAt (h : AllLoad verdict backing r want) :
    ¬ FailsAt verdict backing r want idx e := by
  intro hfails
  obtain ⟨data, hdata⟩ := h idx hfails.touches
  exact absurd (hfails.fails.symm.trans hdata) (by simp)

/-! ### One block -/

theorem fetch_eq_ok {layer : VerifiedLayer} {entry : FileEntry}
    (h : fetch verdict layer entry backing idx = .ok data) :
    readExact (backing idx) (idx * blockSize) (toRead entry idx) = .ok data := by
  obtain ⟨data', hread, h⟩ := except_bind_eq_ok.mp h
  obtain ⟨-, -, h⟩ := except_bind_eq_ok.mp h
  obtain rfl := Except.ok.inj h
  exact hread

/-- A block that is not the one read last is fetched. -/
theorem blockFor_eq_fetch (h : ∀ data, r.current ≠ some (r.position / blockSize, data)) :
    blockFor verdict backing r idx = fetch verdict r.layer r.entry backing idx := by
  have hnone : (r.current.filter fun kept => kept.1 = idx ∧ idx = r.position / blockSize) =
      none := by
    rw [Option.filter_eq_none_iff]
    intro kept hkept hidx
    obtain ⟨hkeptIdx, hfirst⟩ := of_decide_eq_true hidx
    obtain ⟨i, data⟩ := kept
    subst hkeptIdx
    subst hfirst
    exact h data hkept
  rw [blockFor, hnone]

theorem blockFor_later (h : r.position / blockSize < idx) :
    blockFor verdict backing r idx = fetch verdict r.layer r.entry backing idx := by
  have hnone : (r.current.filter fun kept => kept.1 = idx ∧ idx = r.position / blockSize) =
      none := by
    rw [Option.filter_eq_none_iff]
    intro kept _ hidx
    have := (of_decide_eq_true hidx).2
    omega
  rw [blockFor, hnone]

theorem blockFor_kept (h : r.current = some (r.position / blockSize, data)) :
    blockFor verdict backing r (r.position / blockSize) = .ok data := by
  rw [blockFor, h, Option.filter_some, if_pos (by simp)]

theorem run_loadBlockBy_kept (h : r.current = some (idx, data)) :
    (loadBlockBy verdict backing idx).run r = .ok data r := by
  have hfilter : r.current.filter (·.1 = idx) = some (idx, data) := by
    rw [h, Option.filter_some, if_pos (by simp)]
  change EStateM.run (match r.current.filter (·.1 = idx) with
    | some (_, data) => Pure.pure data
    | none => _ : ReaderM Bytes) r = _
  rw [hfilter]
  rfl

theorem run_loadBlockBy_fetch (h : ∀ data, r.current ≠ some (idx, data)) :
    (loadBlockBy verdict backing idx).run r =
      (ask (fun r => fetch verdict r.layer r.entry backing idx) >>= fun data =>
        set { r with current := some (idx, data) } >>= fun _ => Pure.pure data :
          ReaderM Bytes).run r := by
  have hfilter : r.current.filter (·.1 = idx) = none := by
    rw [Option.filter_eq_none_iff]
    intro kept hkept hidx
    obtain ⟨i, data⟩ := kept
    obtain rfl := of_decide_eq_true hidx
    exact h data hkept
  change EStateM.run (match r.current.filter (·.1 = idx) with
    | some (_, data) => Pure.pure data
    | none => ask (fun _ => readExact (backing idx) (idx * blockSize) (toRead r.entry idx)) >>=
        fun data => ask (fun _ => verdict r.layer r.entry idx data) >>= fun _ =>
          set { r with current := some (idx, data) } >>= fun _ => Pure.pure data :
            ReaderM Bytes) r = _
  rw [hfilter]
  unfold fetch ask
  simp only [bind, EStateM.bind, EStateM.run, Except.bind]
  cases readExact (backing idx) (idx * blockSize) (toRead r.entry idx) with
  | error e => rfl
  | ok data =>
    cases hverdict : verdict r.layer r.entry idx data with
    | error e => simp [hverdict]
    | ok _ => simp [hverdict, pure, Except.pure]

/-- The block that loads at the position is kept. -/
theorem run_loadBlockBy_ok
    (h : blockFor verdict backing r (r.position / blockSize) = .ok data) :
    (loadBlockBy verdict backing (r.position / blockSize)).run r =
      .ok data { r with current := some (r.position / blockSize, data) } := by
  by_cases hkept : ∃ data', r.current = some (r.position / blockSize, data')
  · obtain ⟨data', hkept⟩ := hkept
    rw [blockFor_kept hkept] at h
    obtain rfl := Except.ok.inj h
    rw [run_loadBlockBy_kept hkept, ← hkept]
  · rw [not_exists] at hkept
    rw [blockFor_eq_fetch hkept] at h
    rw [run_loadBlockBy_fetch hkept]
    simp [bind, EStateM.bind, EStateM.run, ask, h]
    rfl

/-- A block that does not load at the position leaves the reader as it was. -/
theorem run_loadBlockBy_error (h : blockFor verdict backing r (r.position / blockSize) = .error e) :
    (loadBlockBy verdict backing (r.position / blockSize)).run r = .error e r := by
  by_cases hkept : ∃ data', r.current = some (r.position / blockSize, data')
  · obtain ⟨data', hkept⟩ := hkept
    rw [blockFor_kept hkept] at h
    cases h
  · rw [not_exists] at hkept
    rw [blockFor_eq_fetch hkept] at h
    rw [run_loadBlockBy_fetch hkept]
    simp [bind, EStateM.bind, EStateM.run, ask, h]

/-- What is got for the block at the position is as long as its index says. -/
theorem Kept.length_blockFor (hkept : Kept r)
    (h : blockFor verdict backing r (r.position / blockSize) = .ok data) :
    data.length = toRead r.entry (r.position / blockSize) := by
  by_cases hcurrent : ∃ data', r.current = some (r.position / blockSize, data')
  · obtain ⟨data', hcurrent⟩ := hcurrent
    rw [blockFor_kept hcurrent] at h
    obtain rfl := Except.ok.inj h
    exact hkept _ _ hcurrent
  · rw [not_exists] at hcurrent
    rw [blockFor_eq_fetch hcurrent] at h
    obtain ⟨-, -, -, hlen⟩ := readExact_eq_ok (fetch_eq_ok h)
    exact hlen

/-! ### The loop -/

/-- How many bytes the loop takes from a block that loads at the position. -/
def taken (r : VerifiedReader) (want : Nat) : Nat :=
  min (toRead r.entry (r.position / blockSize) - r.position % blockSize) want

/-- The reader behind a block that loaded at the position. -/
def behind (r : VerifiedReader) (want : Nat) (data : Bytes) : VerifiedReader :=
  { r with
    position := r.position + taken r want
    current := some (r.position / blockSize, data) }

theorem taken_pos (hwant : want ≠ 0) (hpos : r.position < r.entry.size) : 0 < taken r want := by
  unfold taken toRead blockSize
  omega

theorem run_readLoopBy_stop (h : want = 0 ∨ r.entry.size ≤ r.position) :
    (readLoopBy verdict backing want).run r = .ok [] r := by
  rw [readLoopBy]
  change EStateM.run (if want = 0 ∨ r.entry.size ≤ r.position then Pure.pure [] else _ :
    ReaderM Bytes) r = _
  rw [if_pos h]
  rfl

theorem run_readLoopBy_error (h : ¬ (want = 0 ∨ r.entry.size ≤ r.position))
    (hblock : blockFor verdict backing r (r.position / blockSize) = .error e) :
    (readLoopBy verdict backing want).run r = .error e r := by
  have hload := run_loadBlockBy_error hblock
  rw [readLoopBy]
  change EStateM.run (if want = 0 ∨ r.entry.size ≤ r.position then Pure.pure [] else
    loadBlockBy verdict backing (r.position / blockSize) >>= _ : ReaderM Bytes) r = _
  rw [if_neg h]
  simp only [bind, EStateM.bind, EStateM.run] at hload ⊢
  rw [hload]

theorem run_readLoopBy_step (hkept : Kept r) (h : ¬ (want = 0 ∨ r.entry.size ≤ r.position))
    (hblock : blockFor verdict backing r (r.position / blockSize) = .ok data) :
    (readLoopBy verdict backing want).run r =
      ((slice data (r.position % blockSize) (taken r want) ++ ·) <$>
        readLoopBy verdict backing (want - taken r want)).run (behind r want data) := by
  have hload := run_loadBlockBy_ok hblock
  have hlen := hkept.length_blockFor hblock
  have hcopy : min (data.length - r.position % blockSize) want = taken r want := by
    rw [hlen, taken]
  rw [not_or, Nat.not_le] at h
  have htaken := taken_pos h.1 h.2
  rw [readLoopBy]
  change EStateM.run (if want = 0 ∨ r.entry.size ≤ r.position then Pure.pure [] else
    loadBlockBy verdict backing (r.position / blockSize) >>= _ : ReaderM Bytes) r = _
  rw [if_neg (by omega)]
  simp only [bind, EStateM.bind, EStateM.run] at hload ⊢
  rw [hload]
  dsimp only
  rw [hcopy, dif_neg (by omega)]
  rfl

/-- Behind a block the read goes on at the start of the next one, if it goes on. -/
theorem Touches.position_behind (h : Touches (behind r want data) (want - taken r want) idx) :
    (behind r want data).position = (r.position / blockSize + 1) * blockSize := by
  obtain ⟨p, hle, hlt, hsize, -⟩ := h
  change r.position + taken r want ≤ p at hle
  change p < r.position + taken r want + (want - taken r want) at hlt
  change p < r.entry.size at hsize
  change r.position + taken r want = _
  unfold taken toRead blockSize at *
  omega

theorem touches_iff (data : Bytes) (h : ¬ (want = 0 ∨ r.entry.size ≤ r.position)) :
    Touches r want idx ↔ idx = r.position / blockSize ∨
      Touches (behind r want data) (want - taken r want) idx := by
  constructor
  · rintro ⟨p, hle, hlt, hsize, rfl⟩
    by_cases hfirst : p < r.position + taken r want
    · left
      unfold taken toRead blockSize at *
      omega
    · right
      refine ⟨p, Nat.not_lt.mp hfirst, ?_, hsize, rfl⟩
      change p < r.position + taken r want + (want - taken r want)
      omega
  · rintro (rfl | ⟨p, hle, hlt, hsize, rfl⟩)
    · exact ⟨r.position, Nat.le_refl _, by omega, by omega, rfl⟩
    · change r.position + taken r want ≤ p at hle
      change p < r.position + taken r want + (want - taken r want) at hlt
      have hle' : taken r want ≤ want := Nat.min_le_right _ _
      exact ⟨p, by omega, by omega, hsize, rfl⟩

/-- Behind a block the later blocks are those of the read that began before it. -/
theorem blockFor_behind
    (hposition : (behind r want data).position = (r.position / blockSize + 1) * blockSize)
    (hidx : r.position / blockSize < idx) :
    blockFor verdict backing (behind r want data) idx = blockFor verdict backing r idx := by
  rw [blockFor_later hidx, blockFor_eq_fetch]
  · rfl
  · intro data' hcurrent
    rw [hposition, Nat.mul_div_cancel _ (by decide)] at hcurrent
    have heq := congrArg Prod.fst (Option.some.inj hcurrent)
    change r.position / blockSize = r.position / blockSize + 1 at heq
    omega

/-- Behind a block only later ones are touched. -/
theorem Touches.lt_of_behind (h : Touches (behind r want data) (want - taken r want) idx) :
    r.position / blockSize < idx := by
  have hle := h.le
  rwa [h.position_behind, Nat.mul_div_cancel _ (by decide)] at hle

/-- If the first block loads and all behind it, all load. -/
theorem AllLoad.of_behind (hstop : ¬ (want = 0 ∨ r.entry.size ≤ r.position))
    (hblock : blockFor verdict backing r (r.position / blockSize) = .ok data)
    (h : AllLoad verdict backing (behind r want data) (want - taken r want)) :
    AllLoad verdict backing r want := by
  intro idx hidx
  rcases (touches_iff data hstop).mp hidx with rfl | hlater
  · exact ⟨data, hblock⟩
  · rw [← blockFor_behind hlater.position_behind hlater.lt_of_behind]
    exact h idx hlater

/-- If the first block loads, the first that does not is the first behind it. -/
theorem FailsAt.of_behind (hstop : ¬ (want = 0 ∨ r.entry.size ≤ r.position))
    (hblock : blockFor verdict backing r (r.position / blockSize) = .ok data)
    (h : FailsAt verdict backing (behind r want data) (want - taken r want) idx e) :
    FailsAt verdict backing r want idx e := by
  have hpos := h.touches.position_behind
  refine ⟨(touches_iff data hstop).mpr (Or.inr h.touches), ?_, ?_⟩
  · intro j hj hlt
    by_cases hfirst : j = r.position / blockSize
    · exact ⟨data, hfirst ▸ hblock⟩
    · rw [← blockFor_behind hpos (by omega)]
      refine h.before j ?_ hlt
      rw [hpos, Nat.mul_div_cancel _ (by decide)]
      omega
  · rw [← blockFor_behind hpos h.touches.lt_of_behind]
    exact h.fails

/-- The loop loads every block that it touches, or stops at the first that does not load,
with the position there. -/
theorem readLoopBy_cases (hkept : Kept r) :
    (AllLoad verdict backing r want ∧
      ∃ out r', (readLoopBy verdict backing want).run r = .ok out r' ∧ Kept r') ∨
    ∃ idx e r', FailsAt verdict backing r want idx e ∧
      (readLoopBy verdict backing want).run r = .error e r' ∧
      r'.position = max r.position (idx * blockSize) ∧ Kept r' := by
  induction want using Nat.strongRecOn generalizing r with
  | _ want ih =>
    by_cases hstop : want = 0 ∨ r.entry.size ≤ r.position
    · -- no block is touched
      left
      refine ⟨?_, [], r, run_readLoopBy_stop hstop, hkept⟩
      rintro idx ⟨p, hle, hlt, hsize, -⟩
      omega
    cases hblock : blockFor verdict backing r (r.position / blockSize) with
    | error e =>
      -- the first block that is touched fails, so nothing was read
      right
      refine ⟨_, e, r, ⟨?_, ?_, hblock⟩, run_readLoopBy_error hstop hblock, ?_, hkept⟩
      · exact ⟨r.position, Nat.le_refl _, by omega, by omega, rfl⟩
      · intro j hle hlt
        omega
      · have := Nat.div_mul_le_self r.position blockSize
        omega
    | ok data =>
      have htaken : 0 < taken r want := taken_pos (by omega) (by omega)
      have hkept' : Kept (behind r want data) := by
        intro i data' hcurrent
        cases hcurrent
        exact hkept.length_blockFor hblock
      have hrun := run_readLoopBy_step hkept hstop hblock
      obtain ⟨hall, out, r', hok, hr'⟩ | ⟨idx, e, r', hfails, herror, hposition, hr'⟩ :=
        ih (want - taken r want) (by omega) hkept'
      · left
        refine ⟨hall.of_behind hstop hblock,
          slice data (r.position % blockSize) (taken r want) ++ out, r', ?_, hr'⟩
        rw [hrun]
        simp only [Functor.map, EStateM.map, EStateM.run] at hok ⊢
        rw [hok]
      · right
        refine ⟨idx, e, r', hfails.of_behind hstop hblock, ?_, ?_, hr'⟩
        · rw [hrun]
          simp only [Functor.map, EStateM.map, EStateM.run] at herror ⊢
          rw [herror]
        · -- the block that fails begins where the read has gone on, or later
          have hlt := Nat.mod_lt r.position (show 0 < blockSize by decide)
          have hdiv := Nat.div_add_mod' r.position blockSize
          have hmul := Nat.mul_le_mul_right blockSize hfails.touches.lt_of_behind
          rw [hposition, hfails.touches.position_behind]
          rw [Nat.succ_mul] at hmul
          rw [Nat.add_mul]
          omega

theorem run_readBy : (readBy verdict backing want).run r = (readLoopBy verdict backing want).run r := by
  change EStateM.run (if r.entry.size ≤ r.position ∨ want = 0 then Pure.pure [] else
    readLoopBy verdict backing want : ReaderM Bytes) r = _
  by_cases hstop : r.entry.size ≤ r.position ∨ want = 0
  · rw [if_pos hstop, run_readLoopBy_stop hstop.symm]
    rfl
  · rw [if_neg hstop]

theorem readBy_cases (verdict : Verdict) (backing : Backing) (want : Nat) (hkept : Kept r) :
    (AllLoad verdict backing r want ∧
      ∃ out r', (readBy verdict backing want).run r = .ok out r' ∧ Kept r') ∨
    ∃ idx e r', FailsAt verdict backing r want idx e ∧
      (readBy verdict backing want).run r = .error e r' ∧
      r'.position = max r.position (idx * blockSize) ∧ Kept r' := by
  rw [run_readBy]
  exact readLoopBy_cases hkept

/-! ### The reader of the source -/

variable {sha256 : Bytes → Hash256} {checks : Bool}

theorem Reached.kept (h : Reached sha256 checks r) : Kept r := by
  induction h with
  | new layer entry =>
    intro i data hcurrent
    cases hcurrent
  | seek h pos ih =>
    rename_i r
    have hspec : Triple (· = r) (VerifiedReader.seek checks pos) (fun _ => Kept) Kept := by
      intro r₀ hr₀
      subst hr₀
      refine Triple.ask_cases (s := r₀) (fun _ _ => ih) ?_ r₀ rfl
      intro q _ r₁ hr₁
      subst hr₁
      by_cases hneg : q < 0
      -- a seek keeps the block that the reader holds, and that is still the one of its index
      · rw [if_pos hneg]
        exact ih
      · rw [if_neg hneg]
        exact ih
    exact hspec.finalState rfl
  | read h backing size ih =>
    rename_i r
    unfold finalState tryRead
    obtain ⟨-, out, r', hrun, hr'⟩ | ⟨idx, e, r', -, hrun, -, hr'⟩ :=
      readBy_cases (tryCheck sha256 checks) backing size ih
    · rw [hrun]
      exact hr'
    · rw [hrun]
      exact hr'

/-- A read that fails without a panic has consumed nothing exactly if the first block that
does not load is the one at the position. -/
theorem read_consumes_nothing_iff (sha256 : Bytes → Hash256) (checks : Bool) (r : VerifiedReader)
    (h : Reached sha256 checks r) (backing : Backing) (size : Nat) :
    (∀ e r', (tryRead sha256 checks backing size).run r = .error e r' → (∀ p, e ≠ .panic p) →
      r'.position = r.position) ↔
    ∀ idx e, FailsAt (tryCheck sha256 checks) backing r size idx e → (∀ p, e ≠ .panic p) →
      idx = r.position / blockSize := by
  have hcases : _ ∨ _ := readBy_cases (tryCheck sha256 checks) backing size h.kept
  obtain ⟨hall, out, r', hrun, -⟩ | ⟨idx, e, r', hfails, hrun, hposition, -⟩ := hcases
  · refine iff_of_true ?_ fun idx e hfails => absurd hfails hall.not_failsAt
    intro e r'' herror
    exact absurd (hrun.symm.trans herror) (by simp)
  · have hle := hfails.touches.le
    have hdiv := Nat.div_add_mod' r.position blockSize
    have hmod := Nat.mod_lt r.position (show 0 < blockSize by decide)
    have hmul := Nat.mul_le_mul_right blockSize hle
    constructor
    · intro hkeeps idx' e' hfails' hpanic
      obtain ⟨rfl, rfl⟩ := hfails.unique hfails'
      have hsame := hkeeps e r' hrun hpanic
      by_contra hne
      have hlater := Nat.mul_le_mul_right blockSize (Nat.lt_of_le_of_ne hle (Ne.symm hne))
      rw [Nat.succ_mul] at hlater
      omega
    · intro hfirst e' r'' herror hpanic
      obtain ⟨rfl, rfl⟩ := EStateM.Result.error.inj (hrun.symm.trans herror)
      have hidx := hfirst idx e hfails hpanic
      rw [hposition, hidx]
      omega

/-! ### Trees of the right shape -/

/-- The verdict of `verify_block` over a tree where it does not panic. -/
def plainCheck (sha256 : Bytes → Hash256) : Verdict := fun layer entry blockIdx blockData =>
  (new layer entry).check sha256 (entry.blockRange.1 + blockIdx) blockData

theorem readLoop_eq_readLoopBy :
    readLoop sha256 backing want = readLoopBy (plainCheck sha256) backing want := by
  induction want using Nat.strongRecOn with
  | _ want ih =>
    rw [readLoop, readLoopBy]
    congr 1
    funext r
    split
    · rfl
    · congr 1
      funext block
      dsimp only
      split
      · rfl
      · rw [ih _ (by omega)]

theorem read_eq_readBy : read sha256 backing want = readBy (plainCheck sha256) backing want := by
  unfold read readBy
  rw [readLoop_eq_readLoopBy]

/-! ### A file that was cut off -/

/-- A reader over the file with two blocks. -/
def twoBlockReader : VerifiedReader :=
  new ⟨⟨[shortSecondDigest, zeroBlockDigest, secondDigest], 2, 2⟩,
    ⟨[], zeroHash, shortSecondDigest, blockSize⟩, shortSecondDigest, .reject⟩
    ⟨["f".toList], blockSize + 1, zeroHash, zeroHash, (0, 2), .file, none⟩

/-- The first block is served, the second one is missing: the read fails with the position
behind the first block. -/
theorem failed_read_consumes :
    Reached shortSecondSha256 true twoBlockReader ∧
      ∃ e r', (tryRead shortSecondSha256 true (fun _ => .ok (List.replicate blockSize 0))
        (blockSize + 1)).run twoBlockReader = .error e r' ∧ (∀ p, e ≠ .panic p) ∧
          r'.position ≠ twoBlockReader.position := by
  -- block 0 is read and passes, and the content ends where block 1 begins
  have hfails : FailsAt (tryCheck shortSecondSha256 true) (fun _ => .ok (List.replicate blockSize 0))
      twoBlockReader (blockSize + 1) 1 .unexpectedEof := by
    refine ⟨⟨blockSize, by decide, by decide, by decide, by decide⟩, ?_, by decide +kernel⟩
    intro j _ hj
    obtain rfl : j = 0 := by omega
    have hread : readExact (.ok (List.replicate blockSize 0)) (0 * blockSize)
        (toRead twoBlockReader.entry 0) = .ok (slice (List.replicate blockSize 0) 0 blockSize) := by
      rw [readExact, if_pos (by decide +kernel)]
      rfl
    have hverdict : tryCheck shortSecondSha256 true twoBlockReader.layer twoBlockReader.entry 0
        (slice (List.replicate blockSize 0) 0 blockSize) = .ok () := by decide +kernel
    refine ⟨slice (List.replicate blockSize 0) 0 blockSize, ?_⟩
    rw [blockFor_eq_fetch fun _ h => Option.some_ne_none _ h.symm, fetch, hread, ok_bind, hverdict]
    rfl
  refine ⟨.new _ _, ?_⟩
  have hreached : Reached shortSecondSha256 true twoBlockReader := .new _ _
  obtain ⟨hall, -⟩ | ⟨idx, e, r', hfails', hrun, hposition, -⟩ :=
    readBy_cases (tryCheck shortSecondSha256 true)
      (fun _ => .ok (List.replicate blockSize 0)) (blockSize + 1) hreached.kept
  · exact absurd hfails hall.not_failsAt
  · obtain ⟨rfl, rfl⟩ := hfails.unique hfails'
    refine ⟨_, r', hrun, by simp, ?_⟩
    rw [hposition]
    decide

theorem read_consumes_nothing_iff_empty :
    ¬ ∃ e r', (tryRead shortSecondSha256 true (fun _ => .ok []) (blockSize + 1)).run
      twoBlockReader = .error e r' ∧ (∀ p, e ≠ .panic p) ∧
        r'.position ≠ twoBlockReader.position := by
  rintro ⟨e, r', hrun, hpanic, hmoved⟩
  refine hmoved ((read_consumes_nothing_iff shortSecondSha256 true twoBlockReader (.new _ _)
    (fun _ => .ok []) (blockSize + 1)).mpr ?_ e r' hrun hpanic)
  intro idx e hfails _
  by_contra hlater
  have hfirst : blockFor (tryCheck shortSecondSha256 true) (fun _ => .ok []) twoBlockReader
      (twoBlockReader.position / blockSize) = .error .unexpectedEof := by decide +kernel
  have hle := hfails.touches.le
  obtain ⟨data, hdata⟩ := hfails.before _ (Nat.le_refl _) (by omega)
  exact absurd (hdata.symm.trans hfirst) (by simp)

end VerifiedReader

end Rspacefs
