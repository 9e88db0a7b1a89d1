import Mathlib.Data.List.Basic
import Mathlib.Data.Nat.Digits.Defs

/-!
# JSON texts

Values, how they are written down, and how a text is read. The numbers are whole. A layout says
which blanks stand in front of an item and behind the name of a field; every layout is read back.

## Main definitions

* `Json` — a value
* `Json.Layout`, `Json.print` — a value as a text
* `Json.parse` — a text as a value
* `Json.Codec` — what is relied on where values are exchanged as texts
* `Json.required`, `Json.optional` — the fields of a record

## Main results

* `Json.parse_print` — reading what was written
* `Json.graphic_compact` — without blanks, a text is one line
-/

namespace Rspacefs.Lib

/-- What has no parts. -/
inductive Scalar
  | null
  | bool (b : Bool)
  | num (n : Int)
  | str (s : List Char)
  deriving DecidableEq, Repr

/-- A JSON value. The fields of an object keep their order. -/
inductive Json
  | scalar (a : Scalar)
  | arr (vs : List Json)
  | obj (fields : List (List Char × Json))

namespace Json

/-- What a text is made of. -/
inductive Token
  | punct (c : Char)
  | scalar (a : Scalar)
  deriving DecidableEq, Repr

/-- A token and the blanks in front of it. -/
structure Piece where
  blanks : List Char
  token : Token

/-- Where the blanks go: in front of an item at some depth, and behind the colon of a field. -/
structure Layout where
  line : Nat → List Char
  gap : List Char

def compact : Layout := ⟨fun _ => [], []⟩

/-- A character between quotes. -/
def escape (c : Char) : List Char :=
  if c = '"' then ['\\', '"']
  else if c = '\\' then ['\\', '\\']
  else if c = '\n' then ['\\', 'n']
  else if c = '\r' then ['\\', 'r']
  else if c = '\t' then ['\\', 't']
  else if c.toNat = 8 then ['\\', 'b']
  else if c.toNat = 12 then ['\\', 'f']
  else if c.toNat < 32 then
    ['\\', 'u', '0', '0', Nat.digitChar (c.toNat / 16), Nat.digitChar (c.toNat % 16)]
  else [c]

def writeScalar : Scalar → List Char
  | .null => "null".toList
  | .bool true => "true".toList
  | .bool false => "false".toList
  | .num (.ofNat n) => Nat.toDigits 10 n
  | .num (.negSucc n) => '-' :: Nat.toDigits 10 (n + 1)
  | .str s => '"' :: s.flatMap escape ++ ['"']

def Token.text : Token → List Char
  | .punct c => [c]
  | .scalar a => writeScalar a

def textOf (ps : List Piece) : List Char := ps.flatMap fun p => p.blanks ++ p.token.text

/-- What separates an item from the one before it. -/
def separator (first : Bool) : List Piece := if first then [] else [⟨[], .punct ','⟩]

/-- The blanks in front of the end of an array or an object. -/
def closing (L : Layout) (depth : Nat) (empty : Bool) : List Char :=
  if empty then [] else L.line depth

mutual

/-- The tokens of a value, with the blanks in front of it. -/
def pieces (L : Layout) (depth : Nat) (blanks : List Char) : Json → List Piece
  | .scalar a => [⟨blanks, .scalar a⟩]
  | .arr vs => ⟨blanks, .punct '['⟩ :: items L (depth + 1) true vs ++
      [⟨closing L depth vs.isEmpty, .punct ']'⟩]
  | .obj fields => ⟨blanks, .punct '{'⟩ :: members L (depth + 1) true fields ++
      [⟨closing L depth fields.isEmpty, .punct '}'⟩]

def items (L : Layout) (depth : Nat) (first : Bool) : List Json → List Piece
  | [] => []
  | v :: vs => separator first ++ pieces L depth (L.line depth) v ++ items L depth false vs

def members (L : Layout) (depth : Nat) (first : Bool) : List (List Char × Json) → List Piece
  | [] => []
  | (name, v) :: fields => separator first ++ [⟨L.line depth, .scalar (.str name)⟩,
      ⟨[], .punct ':'⟩] ++ pieces L depth L.gap v ++ members L depth false fields

end

def isBlank (c : Char) : Bool := c = ' ' || c = '\n' || c = '\r' || c = '\t'

def puncts : List Char := ['[', ']', '{', '}', ',', ':']

/-- The tokens behind the comma that a further item needs. -/
def readSeparator (first : Bool) : List Token → Option (List Token)
  | ts => if first then some ts else match ts with
    | .punct ',' :: ts => some ts
    | _ => none

mutual

/-- The value at the beginning of the tokens, and what follows it. -/
def readValue : Nat → List Token → Option (Json × List Token)
  | _ + 1, .scalar a :: ts => some (.scalar a, ts)
  | n + 1, .punct '[' :: ts => (readItems n true ts).map fun (vs, ts) => (.arr vs, ts)
  | n + 1, .punct '{' :: ts => (readMembers n true ts).map fun (fields, ts) => (.obj fields, ts)
  | _, _ => none

def readItems : Nat → Bool → List Token → Option (List Json × List Token)
  | 0, _, _ => none
  | _ + 1, _, .punct ']' :: ts => some ([], ts)
  | n + 1, first, ts => do
    let ts ← readSeparator first ts
    let (v, ts) ← readValue n ts
    let (vs, ts) ← readItems n false ts
    return (v :: vs, ts)

def readMembers : Nat → Bool → List Token → Option (List (List Char × Json) × List Token)
  | 0, _, _ => none
  | _ + 1, _, .punct '}' :: ts => some ([], ts)
  | n + 1, first, ts => do
    match ← readSeparator first ts with
    | .scalar (.str name) :: .punct ':' :: ts =>
      let (v, ts) ← readValue n ts
      let (fields, ts) ← readMembers n false ts
      return ((name, v) :: fields, ts)
    | _ => none

end

variable {c : Char} {cs rest : List Char} {a : Scalar} {L : Layout}

/-! ### Scalars -/

/-- The text goes on with what is no digit. -/
def Stops (cs : List Char) : Prop := ∀ c ∈ cs.head?, c.isDigit = false

def Blank (cs : List Char) : Prop := ∀ c ∈ cs, isBlank c = true

theorem blank_nil : Blank [] := fun _ hc => absurd hc List.not_mem_nil

/-- A layout of blanks. -/
structure Layout.Blank (L : Layout) : Prop where
  line : ∀ depth, Json.Blank (L.line depth)
  gap : Json.Blank L.gap

def Token.Proper : Token → Prop
  | .punct c => c ∈ puncts
  | .scalar _ => True

/-- The text is made of these tokens, with blanks in front of them. -/
inductive Spells : List Char → List Token → Prop
  | nil : Spells [] []
  | cons {blanks rest : List Char} {t : Token} {ts : List Token} (hblanks : Blank blanks)
      (ht : t.Proper) (hstops : (∃ a, t = .scalar a) → Stops rest) (h : Spells rest ts) :
      Spells (blanks ++ (t.text ++ rest)) (t :: ts)

theorem stops_of_blank {blanks : List Char} (hblanks : Blank blanks) (h : Stops rest) :
    Stops (blanks ++ rest) := by
  cases blanks with
  | nil => exact h
  | cons c blanks =>
    rintro _ ⟨⟩
    have hc := hblanks c List.mem_cons_self
    simp only [isBlank, Bool.or_eq_true, decide_eq_true_eq] at hc
    rcases hc with ((rfl | rfl) | rfl) | rfl <;> rfl

theorem stops_punct (hc : c ∈ puncts) (rest : List Char) :
    Stops (c :: rest) := by
  rintro _ ⟨⟩
  have hall : ∀ c ∈ puncts, c.isDigit = false := List.forall_iff_forall_mem.mp (by decide)
  exact hall c hc

theorem textOf_append (ps qs : List Piece) : textOf (ps ++ qs) = textOf ps ++ textOf qs :=
  List.flatMap_append

theorem textOf_cons (p : Piece) (ps : List Piece) :
    textOf (p :: ps) = p.blanks ++ (p.token.text ++ textOf ps) := by
  rw [textOf, List.flatMap_cons, List.append_assoc]
  rfl

theorem blank_closing (hL : L.Blank) (depth : Nat) (empty : Bool) :
    Blank (closing L depth empty) := by
  cases empty with
  | true => exact blank_nil
  | false => exact hL.line depth

/-- Pieces in front of a text that is made of tokens. -/
def Adds (ps : List Piece) : Prop :=
  ∀ rest ts, Stops rest → Spells rest ts →
    Spells (textOf ps ++ rest) (ps.map Piece.token ++ ts)

/-- Pieces that no number goes on with. -/
def Opens (ps : List Piece) : Prop := ∀ rest, Stops rest → Stops (textOf ps ++ rest)

theorem adds_nil : Adds [] := fun _ _ _ h => h

theorem Adds.append {ps qs : List Piece} (hps : Adds ps) (hqs : Adds qs) (h : Opens qs) :
    Adds (ps ++ qs) := by
  intro rest ts hrest hts
  rw [textOf_append, List.append_assoc, List.map_append, List.append_assoc]
  exact hps _ _ (h rest hrest) (hqs rest ts hrest hts)

theorem adds_scalar {blanks : List Char} (hblanks : Blank blanks) (a : Scalar) :
    Adds [⟨blanks, .scalar a⟩] := by
  intro rest ts hrest hts
  rw [textOf_cons, List.append_assoc, List.append_assoc]
  exact .cons hblanks True.intro (fun _ => hrest) hts

theorem Adds.punct {blanks : List Char} {qs : List Piece} (hblanks : Blank blanks)
    (hc : c ∈ puncts) (h : Adds qs) : Adds (⟨blanks, .punct c⟩ :: qs) := by
  intro rest ts hrest hts
  rw [textOf_cons, List.append_assoc, List.append_assoc]
  exact .cons hblanks hc (fun ⟨a, ha⟩ => nomatch ha) (h rest ts hrest hts)

theorem opens_punct {blanks : List Char} (hblanks : Blank blanks) (hc : c ∈ puncts)
    (qs : List Piece) : Opens (⟨blanks, .punct c⟩ :: qs) := by
  intro rest _
  rw [textOf_cons, List.append_assoc, List.append_assoc]
  exact stops_of_blank hblanks (stops_punct hc _)

theorem opens_items (depth : Nat) (vs : List Json) : Opens (items L depth false vs) := by
  cases vs with
  | nil => exact fun _ h => h
  | cons v vs => exact opens_punct blank_nil (by decide) _

theorem opens_members (depth : Nat) (fields : List (List Char × Json)) :
    Opens (members L depth false fields) := by
  cases fields with
  | nil => exact fun _ h => h
  | cons field fields => exact opens_punct blank_nil (by decide) _

theorem Adds.separated {qs : List Piece} (h : Adds qs) (first : Bool) :
    Adds (separator first ++ qs) := by
  cases first with
  | true => exact h
  | false => exact .punct blank_nil (by decide) h

mutual

/-- A value is written as its tokens. -/
theorem adds_pieces (hL : L.Blank) (depth : Nat) {blanks : List Char} (hblanks : Blank blanks) :
    ∀ v, Adds (pieces L depth blanks v)
  | .scalar a => adds_scalar hblanks a
  | .arr vs =>
    .punct hblanks (by decide) ((adds_items hL (depth + 1) true vs).append
      (.punct (blank_closing hL depth _) (by decide) adds_nil)
      (opens_punct (blank_closing hL depth _) (by decide) _))
  | .obj fields =>
    .punct hblanks (by decide) ((adds_members hL (depth + 1) true fields).append
      (.punct (blank_closing hL depth _) (by decide) adds_nil)
      (opens_punct (blank_closing hL depth _) (by decide) _))

theorem adds_items (hL : L.Blank) (depth : Nat) (first : Bool) :
    ∀ vs, Adds (items L depth first vs)
  | [] => adds_nil
  | v :: vs => by
    rw [items, List.append_assoc]
    exact ((adds_pieces hL depth (hL.line depth) v).append (adds_items hL depth false vs)
      (opens_items depth vs)).separated first

theorem adds_members (hL : L.Blank) (depth : Nat) (first : Bool) :
    ∀ fields, Adds (members L depth first fields)
  | [] => adds_nil
  | (name, v) :: fields => by
    rw [members, List.append_assoc, List.append_assoc]
    have hrest := (adds_pieces hL depth hL.gap v).append (adds_members hL depth false fields)
      (opens_members depth fields)
    have hcolon : ':' ∈ puncts := by decide
    have hname := (adds_scalar (hL.line depth) (.str name)).append
      (hrest.punct blank_nil hcolon) (opens_punct blank_nil (by decide) _)
    exact hname.separated first

end

/-! ### Tokens as values -/

def tokens (ps : List Piece) : List Token := ps.map Piece.token

theorem tokens_append (ps qs : List Piece) : tokens (ps ++ qs) = tokens ps ++ tokens qs :=
  List.map_append

/-- No array and no object ends where a value begins. -/
theorem head?_pieces (depth : Nat) (blanks : List Char) (v : Json) (ts : List Token) :
    ∀ t ∈ (tokens (pieces L depth blanks v) ++ ts).head?,
      t ≠ .punct ']' ∧ t ≠ .punct '}' := by
  have hfirst : ∀ t' : Token, ∀ {t}, t ∈ some t' → t' ≠ .punct ']' ∧ t' ≠ .punct '}' →
      t ≠ .punct ']' ∧ t ≠ .punct '}' := by
    rintro _ t ⟨⟩ h
    exact h
  intro t ht
  cases v with
  | scalar a => exact hfirst (.scalar a) ht ⟨nofun, nofun⟩
  | arr vs => exact hfirst (.punct '[') ht (by decide)
  | obj fields => exact hfirst (.punct '{') ht (by decide)

theorem length_pieces_pos (depth : Nat) (blanks : List Char) (v : Json) :
    0 < (pieces L depth blanks v).length := by
  cases v <;> exact Nat.succ_pos _

theorem readItems_succ (n : Nat) (first : Bool) {ts : List Token}
    (h : ∀ t ∈ ts.head?, t ≠ .punct ']') :
    readItems (n + 1) first ts = (readSeparator first ts).bind fun ts =>
      (readValue n ts).bind fun (v, ts) =>
        (readItems n false ts).bind fun (vs, ts) => some (v :: vs, ts) := by
  rw [readItems]
  · rfl
  · rintro ts rfl
    exact h _ rfl rfl

theorem readMembers_succ (n : Nat) (first : Bool) {ts rest : List Token} {name : List Char}
    (h : ∀ t ∈ ts.head?, t ≠ .punct '}')
    (hname : readSeparator first ts = some (.scalar (.str name) :: .punct ':' :: rest)) :
    readMembers (n + 1) first ts = (readValue n rest).bind fun (v, ts) =>
      (readMembers n false ts).bind fun (fields, ts) => some ((name, v) :: fields, ts) := by
  rw [readMembers, hname]
  · rfl
  · rintro ts rfl
    exact h _ rfl rfl

theorem readSeparator_separator (first : Bool) (ts : List Token) :
    readSeparator first (tokens (separator first) ++ ts) = some ts := by
  cases first <;> rfl

theorem head?_separated (first : Bool) {t : Token} {ts : List Token} (ht : t ≠ .punct ',')
    (h : ∀ t' ∈ ts.head?, t' ≠ t) :
    ∀ t' ∈ (tokens (separator first) ++ ts).head?, t' ≠ t := by
  cases first with
  | true => exact h
  | false =>
    rintro _ ⟨⟩
    exact ht.symm

mutual

/-- A value is read back from its tokens. -/
theorem readValue_pieces (depth : Nat) (blanks : List Char) : ∀ (v : Json) (n : Nat)
    (ts : List Token), (pieces L depth blanks v).length ≤ n →
      readValue n (tokens (pieces L depth blanks v) ++ ts) = some (v, ts)
  | .scalar a, n, ts, hn => by
    obtain ⟨n, rfl⟩ := Nat.exists_eq_add_of_le' hn
    rfl
  | .arr vs, n, ts, hn => by
    simp only [pieces, List.length_cons, List.length_append, List.length_nil] at hn
    obtain ⟨n, rfl⟩ := Nat.exists_eq_add_of_le' (Nat.one_le_of_lt hn)
    have hvs := readItems_items (depth + 1) vs true n ts (by omega)
    have htokens : tokens (pieces L depth blanks (.arr vs)) ++ ts =
        .punct '[' :: (tokens (items L (depth + 1) true vs) ++ .punct ']' :: ts) := by
      simp [tokens, pieces]
    rw [htokens, readValue, hvs]
    rfl
  | .obj fields, n, ts, hn => by
    simp only [pieces, List.length_cons, List.length_append, List.length_nil] at hn
    obtain ⟨n, rfl⟩ := Nat.exists_eq_add_of_le' (Nat.one_le_of_lt hn)
    have hfields := readMembers_members (depth + 1) fields true n ts (by omega)
    have htokens : tokens (pieces L depth blanks (.obj fields)) ++ ts =
        .punct '{' :: (tokens (members L (depth + 1) true fields) ++ .punct '}' :: ts) := by
      simp [tokens, pieces]
    rw [htokens, readValue, hfields]
    rfl

theorem readItems_items (depth : Nat) : ∀ (vs : List Json) (first : Bool) (n : Nat)
    (ts : List Token), (items L depth first vs).length < n →
      readItems n first (tokens (items L depth first vs) ++ .punct ']' :: ts) = some (vs, ts)
  | [], first, n, ts, hn => by
    obtain ⟨n, rfl⟩ := Nat.exists_eq_add_of_le' (Nat.one_le_of_lt hn)
    rfl
  | v :: vs, first, n, ts, hn => by
    simp only [items, List.length_append] at hn
    obtain ⟨n, rfl⟩ := Nat.exists_eq_add_of_le' (Nat.one_le_of_lt hn)
    have hv := readValue_pieces depth (L.line depth) v n
      (tokens (items L depth false vs) ++ .punct ']' :: ts) (by omega)
    have hpos := length_pieces_pos (L := L) depth (L.line depth) v
    have hvs := readItems_items depth vs false n ts (by omega)
    rw [items, tokens_append, tokens_append, List.append_assoc, List.append_assoc,
      readItems_succ n first (head?_separated first (by decide)
        fun t ht => (head?_pieces depth _ v _ t ht).1), readSeparator_separator]
    change (readValue n _).bind _ = _
    rw [hv]
    change (readItems n false _).bind _ = _
    rw [hvs]
    rfl

theorem readMembers_members (depth : Nat) : ∀ (fields : List (List Char × Json)) (first : Bool)
    (n : Nat) (ts : List Token), (members L depth first fields).length < n →
      readMembers n first (tokens (members L depth first fields) ++ .punct '}' :: ts) =
        some (fields, ts)
  | [], first, n, ts, hn => by
    obtain ⟨n, rfl⟩ := Nat.exists_eq_add_of_le' (Nat.one_le_of_lt hn)
    rfl
  | (name, v) :: fields, first, n, ts, hn => by
    simp only [members, List.length_append, List.length_cons, List.length_nil] at hn
    obtain ⟨n, rfl⟩ := Nat.exists_eq_add_of_le' (Nat.one_le_of_lt hn)
    have hv := readValue_pieces depth L.gap v n
      (tokens (members L depth false fields) ++ .punct '}' :: ts) (by omega)
    have hfields := readMembers_members depth fields false n ts (by omega)
    have htokens : tokens (members L depth first ((name, v) :: fields)) ++ .punct '}' :: ts =
        tokens (separator first) ++ (.scalar (.str name) :: .punct ':' ::
          (tokens (pieces L depth L.gap v) ++
            (tokens (members L depth false fields) ++ .punct '}' :: ts))) := by
      simp [tokens, members]
    -- what comes first is a name or a comma, so the object is not taken to end here
    have hhead : ∀ t ∈ (tokens (separator first) ++ (.scalar (.str name) :: .punct ':' ::
        (tokens (pieces L depth L.gap v) ++
          (tokens (members L depth false fields) ++ .punct '}' :: ts)))).head?,
        t ≠ .punct '}' := by
      refine head?_separated first (by decide) ?_
      rintro _ ⟨⟩
      exact nofun
    rw [htokens, readMembers_succ n first hhead (readSeparator_separator _ _), hv]
    change (readMembers n false _).bind _ = _
    rw [hfields]
    rfl

end

/-- Without control characters. -/
def Graphic (cs : List Char) : Prop := ∀ c ∈ cs, 32 ≤ c.toNat

instance (cs : List Char) : Decidable (Graphic cs) :=
  List.decidableBAll (fun c : Char => 32 ≤ c.toNat) cs

theorem Graphic.append {ds : List Char} (hcs : Graphic cs) (hds : Graphic ds) :
    Graphic (cs ++ ds) :=
  List.forall_mem_append.mpr ⟨hcs, hds⟩

theorem graphic_nil : Graphic [] := fun _ hc => absurd hc List.not_mem_nil

theorem graphic_of_isDigit (hcs : ∀ c ∈ cs, c.isDigit = true) : Graphic cs := by
  intro c hc
  have hdigit := hcs c hc
  simp only [Char.isDigit, Bool.and_eq_true, decide_eq_true_eq] at hdigit
  have hlow : 48 ≤ c.toNat := hdigit.1
  omega

theorem graphic_escape (c : Char) : Graphic (escape c) := by
  unfold escape
  split_ifs with hquote hback hline hreturn htab h8 h12 hlow
  · decide
  · decide
  · decide
  · decide
  · decide
  · decide
  · decide
  · have hhex : ∀ d, d < 16 → 32 ≤ (Nat.digitChar d).toNat := by decide
    have hprefix : Graphic ['\\', 'u', '0', '0'] := by decide
    refine hprefix.append ?_
    rintro d hd
    rcases List.mem_cons.mp hd with rfl | hd
    · exact hhex _ (by omega)
    · rw [List.mem_singleton.mp hd]
      exact hhex _ (by omega)
  · intro d hd
    rw [List.mem_singleton.mp hd]
    exact Nat.le_of_not_lt hlow

theorem graphic_writeScalar (a : Scalar) : Graphic (writeScalar a) := by
  have hdigits : ∀ n, Graphic (Nat.toDigits 10 n) := fun n =>
    graphic_of_isDigit fun c hc => Nat.isDigit_of_mem_toDigits (by decide) (by decide) hc
  cases a with
  | null => decide
  | bool b => cases b <;> decide
  | num n =>
    cases n with
    | ofNat n => exact hdigits n
    | negSucc n =>
      have hminus : Graphic ['-'] := by decide
      exact hminus.append (hdigits (n + 1))
  | str s =>
    have hs : Graphic (s.flatMap escape) := by
      intro c hc
      obtain ⟨d, -, hd⟩ := List.mem_flatMap.mp hc
      exact graphic_escape d c hd
    have hquote : Graphic ['"'] := by decide
    exact (hquote.append hs).append hquote

theorem graphic_cons {t : Token} {ps : List Piece} (ht : Graphic t.text) (h : Graphic (textOf ps)) :
    Graphic (textOf (⟨[], t⟩ :: ps)) := by
  rw [textOf_cons]
  exact graphic_nil.append (ht.append h)

theorem graphic_punct (hc : c ∈ puncts) : Graphic (Token.punct c).text := by
  have hall : ∀ c ∈ puncts, 32 ≤ c.toNat := List.forall_iff_forall_mem.mp (by decide)
  intro d hd
  rw [List.mem_singleton.mp hd]
  exact hall c hc

theorem closing_compact (depth : Nat) (empty : Bool) : closing compact depth empty = [] := by
  cases empty <;> rfl

theorem graphic_separator (first : Bool) : Graphic (textOf (separator first)) := by
  cases first <;> decide

mutual

theorem graphic_pieces (depth : Nat) : ∀ v, Graphic (textOf (pieces compact depth [] v))
  | .scalar a => graphic_cons (graphic_writeScalar a) graphic_nil
  | .arr vs => by
    rw [pieces, List.cons_append]
    refine graphic_cons (graphic_punct (by decide)) ?_
    rw [textOf_append, closing_compact]
    exact (graphic_items (depth + 1) true vs).append (by decide)
  | .obj fields => by
    rw [pieces, List.cons_append]
    refine graphic_cons (graphic_punct (by decide)) ?_
    rw [textOf_append, closing_compact]
    exact (graphic_members (depth + 1) true fields).append (by decide)

theorem graphic_items (depth : Nat) (first : Bool) :
    ∀ vs, Graphic (textOf (items compact depth first vs))
  | [] => graphic_nil
  | v :: vs => by
    rw [items, textOf_append, textOf_append]
    exact ((graphic_separator first).append (graphic_pieces depth v)).append
      (graphic_items depth false vs)

theorem graphic_members (depth : Nat) (first : Bool) :
    ∀ fields, Graphic (textOf (members compact depth first fields))
  | [] => graphic_nil
  | (name, v) :: fields => by
    rw [members, textOf_append, textOf_append, textOf_append]
    have hname : Graphic (textOf [⟨[], .scalar (.str name)⟩, ⟨[], .punct ':'⟩]) :=
      graphic_cons (graphic_writeScalar (.str name)) (graphic_cons (graphic_punct (by decide)) graphic_nil)
    exact (((graphic_separator first).append hname).append (graphic_pieces depth v)).append
      (graphic_members depth false fields)

end

/-- A number that fits into 64 bits, with or without a sign. -/
def Scalar.Fits : Scalar → Prop
  | .num n => -2 ^ 63 ≤ n ∧ n < 2 ^ 64
  | _ => True

/-- Arrays and objects are nested this deep at most, and the numbers fit. -/
inductive Within : Nat → Json → Prop
  | scalar {depth : Nat} {a : Scalar} (ha : Scalar.Fits a) : Within depth (.scalar a)
  | arr {depth : Nat} {vs : List Json} (hvs : ∀ v ∈ vs, Within depth v) :
      Within (depth + 1) (.arr vs)
  | obj {depth : Nat} {fields : List (List Char × Json)}
      (hfields : ∀ field ∈ fields, Within depth field.2) : Within (depth + 1) (.obj fields)

theorem Within.mono {depth depth' : Nat} {v : Json} (h : Within depth v) (hle : depth ≤ depth') :
    Within depth' v := by
  induction h generalizing depth' with
  | scalar ha => exact .scalar ha
  | arr hvs ih =>
    obtain ⟨n, rfl⟩ := Nat.exists_eq_add_of_le' (Nat.one_le_of_lt hle)
    exact .arr fun v hv => ih v hv (Nat.le_of_succ_le_succ hle)
  | obj hfields ih =>
    obtain ⟨n, rfl⟩ := Nat.exists_eq_add_of_le' (Nat.one_le_of_lt hle)
    exact .obj fun field hfield => ih field hfield (Nat.le_of_succ_le_succ hle)

/-- An implementation that nests 127 deep. -/
structure Codec where
  toText : Json → List Char
  toTextPretty : Json → List Char
  ofText : List Char → Option Json
  /-- Why a text is not read. -/
  explain : List Char → List Char
  ofText_toText : ∀ v, Within 127 v → ofText (toText v) = some v
  ofText_toTextPretty : ∀ v, Within 127 v → ofText (toTextPretty v) = some v
  graphic_toText : ∀ v, Graphic (toText v)

variable {α : Type}

def str (s : List Char) : Json := .scalar (.str s)

def num (n : Nat) : Json := .scalar (.num n)

/-- The fields of a record, by their names or one after the other. -/
def fieldsOf (names : List (List Char)) : Json → Option (List (List Char × Json))
  | .obj fields => some fields
  | .arr vs => if vs.length ≤ names.length then some (names.zip vs) else none
  | .scalar _ => none

/-- A field that may be missing, and is not there twice. -/
def lookup (name : List Char) (fields : List (List Char × Json)) : Option (Option Json) :=
  match fields.filter (·.1 = name) with
  | [] => some none
  | [field] => some (some field.2)
  | _ => none

def required (decode : Json → Option α) (name : List Char) (fields : List (List Char × Json)) :
    Option α := do
  decode (← (← lookup name fields))

def optional (default : α) (decode : Json → Option α) (name : List Char)
    (fields : List (List Char × Json)) : Option α := do
  match ← lookup name fields with
  | some v => decode v
  | none => some default

def asStr : Json → Option (List Char)
  | .scalar (.str s) => some s
  | _ => none

/-- A number below a limit. -/
def asNat (limit : Nat) : Json → Option Nat
  | .scalar (.num (.ofNat n)) => if n < limit then some n else none
  | _ => none

end Json

end Rspacefs.Lib
