import Mathlib.Algebra.Ring.Nat
import Mathlib.Data.List.DropRight
import Mathlib.Data.List.Infix

/-!
# Telling a `mount_program` invocation

The container runtimes start the daemon as `mount_program -o lowerdir=…,upperdir=… /mnt`, a user
starts it with arguments of its own, and `main` of `rspacefs-fuse/src/main.rs` tells the two apart
by `looks_like_mount_program`. That function returns at the first argument that stands behind a
`-o`, while the loop of `run_mount_program` goes on and collects what every `-o` says: an invocation
whose first `-o` is `ro` and whose second has the directories is not recognised.

## Main definitions

* `looksLikeMountProgram`, `argLoop`, `parseOverlayOptions` — the two scanners of the arguments
* `words` — the arguments read as options, positional arguments and the rest
* `OffersLower` — some option value that the loop comes to has a lower directory
* `SilentFirst` — the first value behind a `-o` has neither directory

## Main results

* `argLoop_eq_wordLoop` — the loop is a loop over the words
* `collects_iff` — when the loop collects a lower directory
* `looksLikeMountProgram_iff` — when the arguments are recognised
* `routed_of_collects_iff` — for which arguments the two agree
-/

namespace Rspacefs.Fuse.MountProgram

/-! ### The source -/

/-- `-o` and `--options`, whose value is the argument behind them. -/
def isOption (arg : List Char) : Bool := arg = "-o".toList ∨ arg = "--options".toList

/-- The argument has `lowerdir=` or `upperdir=` somewhere. -/
def Mentions (arg : List Char) : Prop :=
  "lowerdir=".toList <:+: arg ∨ "upperdir=".toList <:+: arg

instance (arg : List Char) : Decidable (Mentions arg) := inferInstanceAs (Decidable (_ ∨ _))

/-- An inline `-o…` with one of the directories. -/
def InlineMention (arg : List Char) : Prop := "-o".toList <+: arg ∧ Mentions arg

instance (arg : List Char) : Decidable (InlineMention arg) := inferInstanceAs (Decidable (_ ∧ _))

/-- The loop of `looks_like_mount_program`, with the flag `prev_was_o`. -/
def looksFrom : Bool → List (List Char) → Bool
  | _, [] => false
  | prevWasO, arg :: rest =>
    if isOption arg then looksFrom true rest
    -- the value of the first `-o` decides, whatever stands behind it
    else if prevWasO then decide (Mentions arg)
    else if InlineMention arg then true
    else looksFrom false rest

/-- Does `argv` look like a `mount_program` invocation? -/
def looksLikeMountProgram (argv : List (List Char)) : Bool := looksFrom false (argv.drop 1)

/-- The characters of `char::is_whitespace`. -/
def isWhitespace (ch : Char) : Bool :=
  (9 ≤ ch.toNat ∧ ch.toNat ≤ 13) ∨ ch.toNat = 0x20 ∨ ch.toNat = 0x85 ∨ ch.toNat = 0xA0 ∨
    ch.toNat = 0x1680 ∨ (0x2000 ≤ ch.toNat ∧ ch.toNat ≤ 0x200A) ∨ ch.toNat = 0x2028 ∨
    ch.toNat = 0x2029 ∨ ch.toNat = 0x202F ∨ ch.toNat = 0x205F ∨ ch.toNat = 0x3000

/-- `str::trim`. -/
def trim (tok : List Char) : List Char := (tok.dropWhile isWhitespace).rdropWhile isWhitespace

/-- What the loop of `run_mount_program` has found so far. -/
structure MountArgs where
  upper : Option (List Char) := none
  lowers : List (List Char) := []
  mountpoint : Option (List Char) := none
  allowOther : Bool := false
  allowRoot : Bool := false
  deriving DecidableEq

/-- One option of a value of `-o`. -/
def overlayOption (st : MountArgs) (tok : List Char) : MountArgs :=
  let tok := trim tok
  if tok = [] then st
  else match tok.dropPrefix? "lowerdir=".toList with
    | some v => { st with lowers := st.lowers ++ (v.splitOn ':').filter (· ≠ []) }
    | none =>
      match tok.dropPrefix? "upperdir=".toList with
      | some v => { st with upper := some v }
      | none =>
        if "workdir=".toList <+: tok then st
        else if tok = "allow_other".toList then { st with allowOther := true }
        else if tok = "allow_root".toList then { st with allowRoot := true }
        -- `volatile`, the flags of the kernel, the tunables of overlayfs and what is unknown
        else st

/-- Take in a value of `-o`, its options separated by commas. -/
def parseOverlayOptions (st : MountArgs) (opts : List Char) : MountArgs :=
  (opts.splitOn ',').foldl overlayOption st

/-- How the loop over the arguments ends. -/
inductive LoopEnd
  | done
  /-- `expected value after -o` -/
  | missingValue
  /-- the help is printed, and nothing is mounted -/
  | help
  /-- `unexpected positional argument` -/
  | unexpected (arg : List Char)
  deriving DecidableEq

/-- The loop of `run_mount_program` over its arguments. -/
def argLoop : MountArgs → List (List Char) → LoopEnd × MountArgs
  | st, [] => (.done, st)
  | st, arg :: rest =>
    if isOption arg then
      match rest with
      | [] => (.missingValue, st)
      | val :: rest => argLoop (parseOverlayOptions st val) rest
    else match arg.dropPrefix? "-o".toList with
      | some opts => argLoop (parseOverlayOptions st opts) rest
      | none =>
        if arg = "-f".toList ∨ arg = "-d".toList ∨ arg = "-s".toList then argLoop st rest
        else if arg = "--help".toList ∨ arg = "-h".toList then (.help, st)
        else if "-".toList <+: arg then argLoop st rest
        else if st.mountpoint.isSome then (.unexpected arg, st)
        else argLoop { st with mountpoint := some arg } rest

/-- The argument loop has collected a lower directory when it ends, in whichever way. -/
def Collects (argv : List (List Char)) : Prop := (argLoop {} (argv.drop 1)).2.lowers ≠ []

/-- The parsers that `main` chooses from. -/
inductive Mode
  | pvc
  | mountProgram
  | native
  deriving DecidableEq

/-- The dispatch of `main`. -/
def mode (argv : List (List Char)) : Mode :=
  if "--pvc".toList ∈ argv then .pvc
  else if looksLikeMountProgram argv then .mountProgram
  else .native

/-! ### The arguments as words -/

/-- What an argument is, or an option together with its value. -/
inductive Word
  /-- a value of `-o`, separate or inline -/
  | option (value : List Char)
  /-- a `-o` at the end, without a value -/
  | missing
  | help
  /-- an option that is accepted or not known, and ignored -/
  | skipped
  | positional (arg : List Char)
  deriving DecidableEq

/-- The word of an argument that takes no value. -/
def wordOf (arg : List Char) : Word :=
  match arg.dropPrefix? "-o".toList with
  | some opts => .option opts
  | none =>
    if arg = "--help".toList ∨ arg = "-h".toList then .help
    else if "-".toList <+: arg then .skipped
    else .positional arg

/-- The arguments read as words. -/
def words : List (List Char) → List Word
  | [] => []
  | arg :: rest =>
    if isOption arg then
      match rest with
      | [] => [.missing]
      | val :: rest => .option val :: words rest
    else wordOf arg :: words rest

/-- The lower directories of one option. -/
def lowersOfToken (tok : List Char) : List (List Char) :=
  match (trim tok).dropPrefix? "lowerdir=".toList with
  | some v => (v.splitOn ':').filter (· ≠ [])
  | none => []

/-- The lower directories of a value of `-o`. -/
def lowersOf (opts : List Char) : List (List Char) := (opts.splitOn ',').flatMap lowersOfToken

/-- How many positional arguments a word is. -/
def Word.positionals : Word → Nat
  | .positional _ => 1
  | _ => 0

/-- With `room` for positional arguments, the words have a value with a lower directory in front of
anything that ends the loop. -/
def OffersWithin (room : Nat) (ws : List Word) : Prop :=
  ∃ before value after, ws = before ++ .option value :: after ∧ lowersOf value ≠ [] ∧
    .missing ∉ before ∧ .help ∉ before ∧ (before.map Word.positionals).sum ≤ room

/-- Some value of `-o` has a lower directory, and neither a request for help nor a second positional
argument stands in front of it. -/
def OffersLower (args : List (List Char)) : Prop := OffersWithin 1 (words args)

/-- The first argument behind the first run of separate `-o`s. -/
def firstValue (args : List (List Char)) : Option (List Char) :=
  ((args.dropWhile (! isOption ·)).dropWhile isOption).head?

/-- The first value behind a separate `-o` mentions neither directory, and no inline `-o…` in front
of it does. -/
def SilentFirst (args : List (List Char)) : Prop :=
  (∀ arg ∈ args.takeWhile (! isOption ·), ¬ InlineMention arg) ∧
    ∃ v, firstValue args = some v ∧ ¬ Mentions v

/-- The loop over the words. -/
def wordLoop : MountArgs → List Word → LoopEnd × MountArgs
  | st, [] => (.done, st)
  | st, .option value :: ws => wordLoop (parseOverlayOptions st value) ws
  | st, .missing :: _ => (.missingValue, st)
  | st, .help :: _ => (.help, st)
  | st, .skipped :: ws => wordLoop st ws
  | st, .positional arg :: ws =>
    if st.mountpoint.isSome then (.unexpected arg, st)
    else wordLoop { st with mountpoint := some arg } ws

/-- How many positional arguments the loop still takes. -/
def MountArgs.room (st : MountArgs) : Nat := if st.mountpoint.isSome then 0 else 1

variable {st : MountArgs} {arg tok opts value : List Char} {args rest argv : List (List Char)}
  {ws : List Word} {w : Word} {room : Nat}

/-! ### What one value adds -/

/-- An option adds its lower directories, and is no mountpoint. -/
theorem overlayOption_found (st : MountArgs) (tok : List Char) :
    (overlayOption st tok).lowers = st.lowers ++ lowersOfToken tok ∧
      (overlayOption st tok).mountpoint = st.mountpoint := by
  have hsame : st.lowers = st.lowers ++ [] := (List.append_nil _).symm
  by_cases hempty : trim tok = []
  · have hnone : lowersOfToken tok = [] := by rw [lowersOfToken, hempty]; rfl
    rw [overlayOption, if_pos hempty, hnone]
    exact ⟨hsame, rfl⟩
  · unfold overlayOption lowersOfToken
    rw [if_neg hempty]
    cases (trim tok).dropPrefix? "lowerdir=".toList with
    | some v => exact ⟨rfl, rfl⟩
    | none =>
      cases (trim tok).dropPrefix? "upperdir=".toList with
      | some v => exact ⟨hsame, rfl⟩
      | none =>
        dsimp only
        split_ifs <;> exact ⟨hsame, rfl⟩

theorem foldl_overlayOption (toks : List (List Char)) (st : MountArgs) :
    (toks.foldl overlayOption st).lowers = st.lowers ++ toks.flatMap lowersOfToken ∧
      (toks.foldl overlayOption st).mountpoint = st.mountpoint := by
  induction toks generalizing st with
  | nil => exact ⟨(List.append_nil _).symm, rfl⟩
  | cons tok toks ih =>
    obtain ⟨hlowers, hmount⟩ := ih (overlayOption st tok)
    obtain ⟨hfirst, hkept⟩ := overlayOption_found st tok
    rw [hfirst, List.append_assoc] at hlowers
    exact ⟨hlowers, hmount.trans hkept⟩

@[simp]
theorem parseOverlayOptions_lowers (st : MountArgs) (opts : List Char) :
    (parseOverlayOptions st opts).lowers = st.lowers ++ lowersOf opts :=
  (foldl_overlayOption (opts.splitOn ',') st).1

@[simp]
theorem parseOverlayOptions_room (st : MountArgs) (opts : List Char) :
    (parseOverlayOptions st opts).room = st.room := by
  have hmount := (foldl_overlayOption (opts.splitOn ',') st).2
  unfold MountArgs.room parseOverlayOptions
  rw [hmount]

/-! ### The loop over the words -/

/-- The three options that are accepted without an effect begin with a dash like the ones that are
not known. -/
theorem skipped_of_flag (h : arg = "-f".toList ∨ arg = "-d".toList ∨ arg = "-s".toList) :
    ¬ (arg = "--help".toList ∨ arg = "-h".toList) ∧ "-".toList <+: arg := by
  rcases h with rfl | rfl | rfl <;> decide

/-- The loop over the arguments is the loop over their words. -/
theorem argLoop_eq_wordLoop (st : MountArgs) (args : List (List Char)) :
    argLoop st args = wordLoop st (words args) := by
  induction args using words.induct generalizing st with
  | case1 => rfl
  | case2 arg hopt =>
    rw [argLoop, words, if_pos hopt, if_pos hopt]
    rfl
  | case3 arg hopt val rest ih =>
    rw [argLoop, words, if_pos hopt, if_pos hopt]
    exact ih _
  | case4 arg rest hopt ih =>
    rw [argLoop.eq_def, words.eq_def]
    dsimp only
    rw [if_neg hopt, if_neg hopt]
    unfold wordOf
    cases arg.dropPrefix? "-o".toList with
    | some opts => exact ih _
    | none =>
      dsimp only
      -- the flags that the source lists one by one are words like the unknown ones
      by_cases hflag : arg = "-f".toList ∨ arg = "-d".toList ∨ arg = "-s".toList
      · obtain ⟨hhelp, hdash⟩ := skipped_of_flag hflag
        rw [if_pos hflag, if_neg hhelp, if_pos hdash]
        exact ih st
      · rw [if_neg hflag]
        split_ifs with hhelp hdash hmount
        · rfl
        · exact ih st
        · exact (if_pos hmount).symm
        · exact (ih _).trans (if_neg hmount).symm

/-- What is found by a word and what is found behind it. -/
theorem offersWithin_cons :
    OffersWithin room (w :: ws) ↔
      (∃ value, w = .option value ∧ lowersOf value ≠ []) ∨
        w ≠ .missing ∧ w ≠ .help ∧ w.positionals ≤ room ∧
          OffersWithin (room - w.positionals) ws := by
  constructor
  · intro h
    obtain ⟨before, value, after, hws, hlowers, hmissing, hhelp, hroom⟩ := h
    cases before with
    | nil => exact .inl ⟨value, (List.cons.inj hws).1, hlowers⟩
    | cons w' before =>
      obtain ⟨rfl, htail⟩ := List.cons.inj hws
      rw [List.mem_cons, not_or] at hmissing hhelp
      rw [List.map_cons, List.sum_cons] at hroom
      exact .inr ⟨Ne.symm hmissing.1, Ne.symm hhelp.1, by omega, before, value, after, htail,
        hlowers, hmissing.2, hhelp.2, by omega⟩
  · intro h
    rcases h with ⟨value, hw, hlowers⟩ | ⟨hmissing, hhelp, hroom, before, value, after, hws, h⟩
    · exact ⟨[], value, ws, by rw [hw]; rfl, hlowers, List.not_mem_nil, List.not_mem_nil,
        Nat.zero_le room⟩
    · obtain ⟨hlowers, hmissing', hhelp', hroom'⟩ := h
      refine ⟨w :: before, value, after, by rw [hws]; rfl, hlowers, ?_, ?_, ?_⟩
      · exact List.not_mem_cons_of_ne_of_not_mem (Ne.symm hmissing) hmissing'
      · exact List.not_mem_cons_of_ne_of_not_mem (Ne.symm hhelp) hhelp'
      · rw [List.map_cons, List.sum_cons]
        omega

theorem not_offersWithin_nil (room : Nat) : ¬ OffersWithin room [] := by
  intro h
  obtain ⟨before, value, after, hws, -⟩ := h
  exact List.append_ne_nil_of_right_ne_nil before (List.cons_ne_nil _ after) hws.symm

/-- The loop has a lower directory at its end if it had one, or comes to a value with one. -/
theorem wordLoop_lowers (st : MountArgs) (ws : List Word) :
    (wordLoop st ws).2.lowers ≠ [] ↔ st.lowers ≠ [] ∨ OffersWithin st.room ws := by
  induction ws generalizing st with
  | nil => exact (or_iff_left (not_offersWithin_nil st.room)).symm
  | cons w ws ih =>
    rw [offersWithin_cons]
    cases w with
    | option value =>
      rw [wordLoop, ih, parseOverlayOptions_lowers, parseOverlayOptions_room]
      simp [Word.positionals]
      tauto
    | missing => simp [wordLoop]
    | help => simp [wordLoop]
    | skipped =>
      rw [wordLoop, ih]
      simp [Word.positionals]
    | positional arg =>
      rw [wordLoop]
      by_cases hmount : st.mountpoint.isSome
      · -- a second positional argument ends the loop
        rw [if_pos hmount]
        simp [Word.positionals, MountArgs.room, hmount]
      · rw [if_neg hmount, ih]
        simp [Word.positionals, MountArgs.room, hmount]

/-- When the loop collects a lower directory. -/
theorem collects_iff : Collects argv ↔ OffersLower (argv.drop 1) := by
  unfold Collects OffersLower
  rw [argLoop_eq_wordLoop, wordLoop_lowers]
  exact or_iff_right (not_not.mpr rfl)

/-! ### A value with a lower directory mentions it -/

theorem infix_of_mem_splitOn {α : Type} [BEq α] [LawfulBEq α] {x : α} {piece xs : List α}
    (h : piece ∈ xs.splitOn x) : piece <:+: xs := by
  have hjoin : ∀ pieces : List (List α), piece ∈ pieces → piece <:+: [x].intercalate pieces := by
    intro pieces
    induction pieces with
    | nil => exact fun hmem => absurd hmem List.not_mem_nil
    | cons first rest ih =>
      intro hmem
      cases rest with
      | nil =>
        rw [List.mem_singleton.mp hmem, List.intercalate_singleton]
      | cons second rest =>
        rw [List.intercalate_cons_cons]
        rcases List.mem_cons.mp hmem with rfl | hrest
        · exact List.infix_append_left.trans List.infix_append_left
        · exact List.infix_append_of_infix_right (ih hrest)
  have hmem := hjoin (xs.splitOn x) h
  rwa [List.intercalate_splitOn] at hmem

theorem trim_within (tok : List Char) : trim tok <:+: tok :=
  (List.rdropWhile_prefix isWhitespace _).isInfix.trans (List.dropWhile_suffix _).isInfix

theorem dropPrefix_eq_some {pre rest : List Char} :
    arg.dropPrefix? pre = some rest ↔ arg = pre ++ rest := by
  rw [List.dropPrefix?_eq_some_iff]
  constructor
  · intro h
    obtain ⟨pre', harg, hpre⟩ := h
    rw [harg, eq_of_beq hpre]
  · exact fun h => ⟨pre, h, beq_self_eq_true pre⟩

theorem mentions_of_lowersOf (h : lowersOf opts ≠ []) : Mentions opts := by
  obtain ⟨lower, hlower⟩ := List.exists_mem_of_ne_nil _ h
  obtain ⟨tok, htok, hlower⟩ := List.mem_flatMap.mp hlower
  unfold lowersOfToken at hlower
  cases hdrop : (trim tok).dropPrefix? "lowerdir=".toList with
  | none =>
    rw [hdrop] at hlower
    exact absurd hlower List.not_mem_nil
  | some v =>
    -- the prefix of the trimmed token is a piece of the whole value
    have hpiece : "lowerdir=".toList <:+: trim tok := by
      rw [dropPrefix_eq_some.mp hdrop]
      exact List.infix_append_left
    exact .inl (hpiece.trans ((trim_within tok).trans (infix_of_mem_splitOn htok)))

theorem lowersOf_of_isOption (h : isOption arg) : lowersOf arg = [] := by
  by_contra hlowers
  rcases of_decide_eq_true h with rfl | rfl <;>
    exact absurd (mentions_of_lowersOf hlowers) (by decide)

theorem inlineMention_of_wordOf (hword : wordOf arg = .option value) (h : lowersOf value ≠ []) :
    InlineMention arg := by
  unfold wordOf at hword
  cases hdrop : arg.dropPrefix? "-o".toList with
  | none =>
    rw [hdrop] at hword
    dsimp only at hword
    split_ifs at hword
  | some opts =>
    rw [hdrop] at hword
    obtain rfl := Word.option.inj hword
    rw [dropPrefix_eq_some.mp hdrop]
    have hmentions := mentions_of_lowersOf h
    exact ⟨List.prefix_append _ _, hmentions.imp List.infix_append_of_infix_right
      List.infix_append_of_infix_right⟩

/-! ### What the other scanner looks at -/

theorem looksFrom_true (args : List (List Char)) :
    looksFrom true args = true ↔ ∃ v, (args.dropWhile isOption).head? = some v ∧ Mentions v := by
  induction args with
  | nil => simp [looksFrom]
  | cons arg rest ih =>
    rw [looksFrom]
    by_cases hopt : isOption arg
    · rw [if_pos hopt, List.dropWhile_cons_of_pos hopt]
      exact ih
    · rw [if_neg hopt, List.dropWhile_cons_of_neg hopt, if_pos rfl]
      simp

/-- The arguments in front of the first separate `-o` are looked at one by one, and behind it the
first that is no `-o` itself. -/
theorem looksFrom_false (args : List (List Char)) :
    looksFrom false args = true ↔
      (∃ arg ∈ args.takeWhile (! isOption ·), InlineMention arg) ∨
        ∃ v, firstValue args = some v ∧ Mentions v := by
  unfold firstValue
  induction args with
  | nil => simp [looksFrom]
  | cons arg rest ih =>
    rw [looksFrom]
    by_cases hopt : isOption arg
    · rw [if_pos hopt, looksFrom_true]
      simp [hopt]
    · rw [if_neg hopt, if_neg Bool.false_ne_true]
      by_cases hinline : InlineMention arg
      · simp [hopt, hinline]
      · rw [if_neg hinline, ih]
        simp [hopt, hinline]

/-- When the arguments are recognised. -/
theorem looksLikeMountProgram_iff :
    looksLikeMountProgram argv = true ↔
      (∃ arg ∈ (argv.drop 1).takeWhile (! isOption ·), InlineMention arg) ∨
        ∃ v, firstValue (argv.drop 1) = some v ∧ Mentions v :=
  looksFrom_false (argv.drop 1)

/-! ### The two together -/

theorem not_offersWithin_words (room : Nat) (h : ∀ arg ∈ args, isOption arg) :
    ¬ OffersWithin room (words args) := by
  induction args using words.induct generalizing room with
  | case1 => exact not_offersWithin_nil room
  | case2 arg hopt =>
    rw [words, if_pos hopt, offersWithin_cons]
    simp
  | case3 arg hopt val rest ih =>
    rw [words, if_pos hopt, offersWithin_cons]
    intro hoffers
    rcases hoffers with ⟨value, hword, hlowers⟩ | ⟨-, -, -, hrest⟩
    · obtain rfl := Word.option.inj hword
      have hval : isOption val := h val (by simp)
      exact hlowers (lowersOf_of_isOption hval)
    · refine ih _ ?_ hrest
      intro arg' hmem
      exact h arg' (by simp [hmem])
  | case4 arg rest hopt => exact absurd (h arg List.mem_cons_self) hopt

/-- A lower directory comes from an inline option in front of the separate ones, or some argument
behind them is no option. -/
theorem inline_or_firstValue (h : OffersWithin room (words args)) :
    (∃ arg ∈ args.takeWhile (! isOption ·), InlineMention arg) ∨ ∃ v, firstValue args = some v := by
  induction args using words.induct generalizing room with
  | case1 => exact absurd h (not_offersWithin_nil room)
  | case2 arg hopt =>
    rw [words, if_pos hopt, offersWithin_cons] at h
    simp at h
  | case3 arg hopt val rest =>
    right
    unfold firstValue
    rw [List.dropWhile_cons_of_neg (by simp [hopt]), List.dropWhile_cons_of_pos hopt]
    cases hdrop : (val :: rest).dropWhile isOption with
    | cons v _ => exact ⟨v, rfl⟩
    | nil =>
      -- nothing but options: no value among them has a lower directory
      have hall : ∀ arg' ∈ arg :: val :: rest, isOption arg' :=
        List.forall_mem_cons.mpr ⟨hopt, List.dropWhile_eq_nil_iff.mp hdrop⟩
      exact absurd h (not_offersWithin_words room hall)
  | case4 arg rest hopt ih =>
    rw [words.eq_def] at h
    dsimp only at h
    rw [if_neg hopt, offersWithin_cons] at h
    -- in front of the first separate `-o` each argument is a word of its own
    have htake : (arg :: rest).takeWhile (! isOption ·) = arg :: rest.takeWhile (! isOption ·) :=
      List.takeWhile_cons_of_pos (by simp [hopt])
    rw [htake, firstValue, List.dropWhile_cons_of_pos (by simp [hopt])]
    rcases h with ⟨value, hword, hlowers⟩ | ⟨-, -, -, hrest⟩
    · exact .inl ⟨arg, List.mem_cons_self, inlineMention_of_wordOf hword hlowers⟩
    · rcases ih hrest with ⟨arg', hmem, hinline⟩ | hvalue
      · exact .inl ⟨arg', List.mem_cons_of_mem arg hmem, hinline⟩
      · exact .inr hvalue

/-- An invocation in which the loop would collect a lower directory is recognised, and goes to that
loop, except if the first value behind a separate `-o` mentions neither directory, no inline option
in front of it does, and a later value has the lower directory. -/
theorem routed_of_collects_iff (hpvc : "--pvc".toList ∉ argv) :
    (Collects argv → looksLikeMountProgram argv = true ∧ mode argv = .mountProgram) ↔
      ¬ (SilentFirst (argv.drop 1) ∧ OffersLower (argv.drop 1)) := by
  have hmode : looksLikeMountProgram argv = true → mode argv = .mountProgram := by
    intro hlooks
    rw [mode, if_neg hpvc, if_pos hlooks]
  rw [collects_iff]
  constructor
  · intro hroutes hsilent
    obtain ⟨⟨hinline, v, hv, hmentions⟩, hoffers⟩ := hsilent
    rcases looksLikeMountProgram_iff.mp (hroutes hoffers).1 with ⟨arg, harg, hin⟩ | ⟨v', hv', hin⟩
    · exact hinline arg harg hin
    · rw [hv] at hv'
      exact hmentions (Option.some.inj hv' ▸ hin)
  · intro hcond hoffers
    have hlooks : looksLikeMountProgram argv = true := by
      by_contra hnot
      rw [looksLikeMountProgram_iff, not_or] at hnot
      obtain ⟨hinline, hvalue⟩ := hnot
      -- the lower directory is behind a value that says nothing
      obtain ⟨v, hv⟩ := (inline_or_firstValue hoffers).resolve_left hinline
      have hsilent : SilentFirst (argv.drop 1) :=
        ⟨fun arg harg hin => hinline ⟨arg, harg, hin⟩, v, hv, fun hin => hvalue ⟨v, hv, hin⟩⟩
      exact hcond ⟨hsilent, hoffers⟩
    exact ⟨hlooks, hmode hlooks⟩

theorem collects_of_mem (lower : List Char) (h : lower ∈ (argLoop {} (argv.drop 1)).2.lowers) :
    Collects argv :=
  List.ne_nil_of_mem h

/-- Everything in one value. -/
def oneValue : List (List Char) :=
  ["rspacefs-mount", "-o", "lowerdir=/l,upperdir=/u", "/mnt"].map String.toList

theorem routed_of_collects_iff_oneValue :
    Collects oneValue ∧ "--pvc".toList ∉ oneValue ∧
      ((Collects oneValue → looksLikeMountProgram oneValue = true ∧ mode oneValue = .mountProgram) ↔
        ¬ (SilentFirst (oneValue.drop 1) ∧ OffersLower (oneValue.drop 1))) := by
  have hpvc : "--pvc".toList ∉ oneValue := by decide
  have hcollects : Collects oneValue := collects_of_mem "/l".toList (by decide)
  exact ⟨hcollects, hpvc, routed_of_collects_iff hpvc⟩

/-- A first `-o` with a flag of the kernel, and a second one with the directories. -/
def flagFirst : List (List Char) :=
  ["rspacefs-mount", "-o", "ro", "-o", "lowerdir=/l,upperdir=/u", "/mnt"].map String.toList

theorem not_routed_of_collects_flagFirst :
    ¬ ∀ argv : List (List Char), "--pvc".toList ∉ argv → Collects argv →
      looksLikeMountProgram argv = true ∧ mode argv = .mountProgram := by
  intro hall
  have hcollects : Collects flagFirst := collects_of_mem "/l".toList (by decide)
  have hlooks : looksLikeMountProgram flagFirst = false := by decide
  have hrouted := (hall flagFirst (by decide) hcollects).1
  rw [hlooks] at hrouted
  exact Bool.false_ne_true hrouted

end Rspacefs.Fuse.MountProgram
