import Mathlib.Data.List.Basic

/-!
# The text exposition format

Metrics as lines of text. A line is a comment about a metric, or a sample with its labels in
braces; the values of labels are quoted, with backslashes, quotes and newlines escaped.

## Main definitions

* `Exposition.lines` — the lines of a text
* `Exposition.readValue` — a quoted value with its escapes undone
* `Exposition.parseLine` — what a line says
* `Exposition.Exposes` — every line says something, and every sample has a given label

## Main results

* `lines_flatten` — pieces that end in a newline are read one by one
-/

namespace Rspacefs.Lib.Exposition

abbrev Text := List Char

/-- Put a character before the first of some lines. -/
def consFirst (ch : Char) : List Text → List Text
  | [] => [[ch]]
  | line :: rest => (ch :: line) :: rest

/-- The lines of a text; the last one may lack its newline. -/
def lines : Text → List Text
  | [] => []
  | ch :: text => if ch = '\n' then [] :: lines text else consFirst ch (lines text)

/-- A letter, an underscore or a colon. -/
def isNameStart (ch : Char) : Bool := ch.isAlpha || ch = '_' || ch = ':'

/-- A metric name. -/
def isName : Text → Bool
  | [] => false
  | ch :: name => isNameStart ch && name.all fun ch => isNameStart ch || ch.isDigit

/-- A label name has no colon. -/
def isLabelName (name : Text) : Bool := isName name && !name.contains ':'

/-- What the character behind a backslash stands for. -/
def unescapeChar (ch : Char) : Option Char :=
  if ch = '\\' then some '\\'
  else if ch = '"' then some '"'
  else if ch = 'n' then some '\n'
  else none

/-- The value of a label up to its closing quote, and what follows the quote. -/
def readValue : Text → Option (Text × Text)
  | [] => none
  | [ch] => if ch = '"' then some ([], []) else none
  | ch :: ch' :: rest =>
    if ch = '"' then some ([], ch' :: rest)
    else if ch = '\n' then none
    else if ch = '\\' then do
      let plain ← unescapeChar ch'
      let (value, rest) ← readValue rest
      some (plain :: value, rest)
    else do
      let (value, rest) ← readValue (ch' :: rest)
      some (ch :: value, rest)

/-- Labels up to the closing brace, and what follows the brace; at most `n` of them. -/
def readLabels : Nat → Text → Option (List (Text × Text) × Text)
  | 0, _ => none
  | n + 1, text => do
    let name := text.takeWhile (· ≠ '=')
    guard (isLabelName name)
    let quoted ← (text.dropWhile (· ≠ '=')).dropPrefix? ['=', '"']
    let (value, rest) ← readValue quoted
    match rest with
    | '}' :: rest => some ([(name, value)], rest)
    | ',' :: rest => do
      let (labels, rest) ← readLabels n rest
      some ((name, value) :: labels, rest)
    | _ => none

/-- What a line says. -/
inductive Line
  | comment (metric : Text)
  | sample (metric : Text) (labels : List (Text × Text)) (value : Text)
  deriving DecidableEq, Repr

/-- The metric named behind `# HELP` or `# TYPE`. -/
def parseComment (text : Text) : Option Line := do
  let name := text.takeWhile (· ≠ ' ')
  guard (isName name)
  some (.comment name)

def parseSample (line : Text) : Option Line := do
  let name := line.takeWhile (· ≠ '{')
  guard (isName name)
  let (labels, rest) ← readLabels line.length ((line.dropWhile (· ≠ '{')).drop 1)
  match rest with
  | ' ' :: value => do
    guard (!value.isEmpty && !value.contains ' ')
    some (.sample name labels value)
  | _ => none

def parseLine (line : Text) : Option Line :=
  if "# HELP ".toList.isPrefixOf line || "# TYPE ".toList.isPrefixOf line then
    parseComment (line.drop 7)
  else parseSample line

/-- Every line is a comment or a sample, and every sample has the value given for the label. -/
structure Exposes (text label value : Text) : Prop where
  wellFormed : ∀ line ∈ lines text, parseLine line ≠ none
  labelled : ∀ line ∈ lines text, ∀ metric labels number,
    parseLine line = some (.sample metric labels number) → labels.lookup label = some value

/-! ### Lines -/

theorem lines_newline (text : Text) : lines ('\n' :: text) = [] :: lines text := if_pos rfl

theorem lines_cons {ch : Char} (h : ch ≠ '\n') (text : Text) :
    lines (ch :: text) = consFirst ch (lines text) := if_neg h

/-- A text that has a character has a line. -/
theorem lines_ne_nil (ch : Char) (text : Text) : lines (ch :: text) ≠ [] := by
  unfold lines
  split
  · exact List.cons_ne_nil _ _
  · cases lines text <;> exact List.cons_ne_nil _ _

theorem consFirst_append (ch : Char) {first : List Text} (h : first ≠ []) (rest : List Text) :
    consFirst ch (first ++ rest) = consFirst ch first ++ rest := by
  cases first with
  | nil => exact absurd rfl h
  | cons line first => rfl

/-- A line without its newline comes first. -/
theorem lines_append_newline {line : Text} (h : '\n' ∉ line) (text : Text) :
    lines (line ++ '\n' :: text) = line :: lines text := by
  induction line with
  | nil => exact lines_newline text
  | cons ch line ih =>
    have hch : ch ≠ '\n' := fun heq => h (heq ▸ List.mem_cons_self)
    have hline : '\n' ∉ line := fun hmem => h (List.mem_cons_of_mem _ hmem)
    rw [List.cons_append, lines_cons hch, ih hline]
    rfl

/-- A text that ends in a newline, or the empty one. -/
def Terminated (text : Text) : Prop := text = [] ∨ text.getLast? = some '\n'

def AllTerminated (pieces : List Text) : Prop := ∀ piece ∈ pieces, Terminated piece

theorem terminated_newline (text : Text) : Terminated (text ++ ['\n']) :=
  .inr (List.getLast?_concat ..)

@[simp] theorem allTerminated_append {pieces pieces' : List Text} :
    AllTerminated (pieces ++ pieces') ↔ AllTerminated pieces ∧ AllTerminated pieces' :=
  List.forall_mem_append

@[simp] theorem allTerminated_cons {piece : Text} {pieces : List Text} :
    AllTerminated (piece :: pieces) ↔ Terminated piece ∧ AllTerminated pieces :=
  List.forall_mem_cons

@[simp] theorem allTerminated_nil : AllTerminated [] := List.forall_mem_nil _

/-- Behind a newline the lines are those of what follows. -/
theorem lines_append {text : Text} (h : Terminated text) (text' : Text) :
    lines (text ++ text') = lines text ++ lines text' := by
  induction text with
  | nil => rfl
  | cons ch text ih =>
    have hlast : (ch :: text).getLast? = some '\n' := h.resolve_left (List.cons_ne_nil _ _)
    by_cases hch : ch = '\n'
    · have hrest : Terminated text := by
        cases text with
        | nil => exact .inl rfl
        | cons ch' text =>
          rw [List.getLast?_cons_cons] at hlast
          exact .inr hlast
      rw [hch, List.cons_append, lines_newline, lines_newline, ih hrest, List.cons_append]
    · cases text with
      | nil => exact absurd (Option.some_inj.mp hlast) hch
      | cons ch' text =>
        rw [List.getLast?_cons_cons] at hlast
        rw [List.cons_append, lines_cons hch, ih (.inr hlast), lines_cons hch,
          consFirst_append ch (lines_ne_nil ch' text)]

/-- Pieces that end in a newline are read one by one. -/
theorem lines_flatten {pieces : List Text} (h : AllTerminated pieces) :
    lines pieces.flatten = pieces.flatMap lines := by
  induction pieces with
  | nil => rfl
  | cons piece pieces ih =>
    rw [allTerminated_cons] at h
    rw [List.flatten_cons, lines_append h.1, ih h.2, List.flatMap_cons]

end Rspacefs.Lib.Exposition
