import Mathlib.Data.List.Infix

/-!
# Paths and whiteout names

A path reaches `LayerFS` through `VfsPath::join`, which drops empty and `.`
components and resolves `..`, so what arrives is a sequence of names. The model
keeps that sequence; the root, written `""` in the source, is the empty list.

Names are lists of characters. The two marker constants and the tests on them
are those of `rspacefs-core/src/layer.rs`.
-/

namespace Rspacefs

/-- One path component. -/
abbrev Name := List Char

instance : LawfulBEq Name := inferInstance

/-- A path as its components, root first; `[]` is the root. -/
abbrev Path := List Name

/-- Prefix for whiteout markers (OCI image spec): `.wh.`. -/
def whiteoutPrefix : Name := ['.', 'w', 'h', '.']

/-- Opaque whiteout marker: `.wh..wh..opq`. -/
def opaqueWhiteout : Name := ".wh..wh..opq".toList

/-- What `VfsPath::join` guarantees of a component. -/
def ValidName (n : Name) : Prop := n ≠ [] ∧ '/' ∉ n ∧ n ≠ ['.'] ∧ n ≠ ['.', '.']

instance (n : Name) : Decidable (ValidName n) := inferInstanceAs (Decidable (_ ∧ _))

/-- `name.starts_with(WHITEOUT_PREFIX)`. -/
def IsMarker (n : Name) : Prop := whiteoutPrefix <+: n

instance (n : Name) : Decidable (IsMarker n) := inferInstanceAs (Decidable (_ <+: _))

/-- `name.strip_prefix(WHITEOUT_PREFIX)`. -/
def stripWhiteout (n : Name) : Option Name :=
  if IsMarker n then some (n.drop whiteoutPrefix.length) else none

/-- A component a client may name: valid, and not a whiteout marker. -/
def PlainName (n : Name) : Prop := ValidName n ∧ ¬ IsMarker n

instance (n : Name) : Decidable (PlainName n) := inferInstanceAs (Decidable (_ ∧ _))

/-- A path with no `.wh.` component. -/
def PlainPath (p : Path) : Prop := ∀ n ∈ p, PlainName n

instance (p : Path) : Decidable (PlainPath p) := inferInstanceAs (Decidable (∀ n ∈ p, _))

/-- Split a path into (parent, name) components. Returns `([], name)` for
top-level paths, and an empty name for the root. -/
def splitPath (path : Path) : Path × Name := (path.dropLast, path.getLastD [])

/-- The whiteout marker that stands for `path`: `<parent>/.wh.<name>`. -/
def whiteoutPath (path : Path) : Path :=
  (splitPath path).1 ++ [whiteoutPrefix ++ (splitPath path).2]

/-- The opaque marker of a directory: `<dir>/.wh..wh..opq`. -/
def opaquePath (dir : Path) : Path := dir ++ [opaqueWhiteout]

/-! ### The text of a path -/

/-- The text `VfsPath` keeps for a path: every component after a slash. -/
def render : Path → List Char
  | [] => []
  | n :: rest => '/' :: n ++ render rest

theorem render_append (p q : Path) : render (p ++ q) = render p ++ render q := by
  induction p with
  | nil => rfl
  | cons n p ih => simp [render, ih]

/-! ### Markers -/

theorem splitPath_concat (d : Path) (n : Name) : splitPath (d ++ [n]) = (d, n) := by
  simp [splitPath]

@[simp] theorem whiteoutPath_concat (d : Path) (n : Name) :
    whiteoutPath (d ++ [n]) = d ++ [whiteoutPrefix ++ n] := by
  simp [whiteoutPath, splitPath]

/-- The marker of a path stands next to it. -/
theorem whiteoutPath_dropLast (p : Path) : (whiteoutPath p).dropLast = p.dropLast := by
  simp [whiteoutPath, splitPath]

theorem isMarker_whiteoutPrefix_append (n : Name) : IsMarker (whiteoutPrefix ++ n) :=
  List.prefix_append _ _

theorem isMarker_opaqueWhiteout : IsMarker opaqueWhiteout := by decide

theorem stripWhiteout_eq_some {n m : Name} :
    stripWhiteout n = some m ↔ n = whiteoutPrefix ++ m := by
  unfold stripWhiteout
  constructor
  · intro h
    split at h
    · rename_i hm
      obtain ⟨r, rfl⟩ := hm
      simp at h
      rw [h]
    · simp at h
  · rintro rfl
    rw [if_pos (isMarker_whiteoutPrefix_append m), List.drop_left]

/-- Only a name that is itself a marker has the opaque marker as its whiteout. -/
theorem whiteout_ne_opaqueWhiteout {n : Name} (hn : ¬ IsMarker n) :
    whiteoutPrefix ++ n ≠ opaqueWhiteout := by
  intro h
  apply hn
  have hsplit : opaqueWhiteout = whiteoutPrefix ++ ".wh..opq".toList := by decide
  rw [hsplit, List.append_cancel_left_eq] at h
  rw [h]
  decide

/-- The last component of a marker path is a marker. -/
theorem isMarker_getLastD_whiteoutPath (p : Path) :
    IsMarker ((whiteoutPath p).getLastD []) := by
  simp [whiteoutPath, isMarker_whiteoutPrefix_append]

theorem dropLast_prefix_dropLast {p q : Path} (h : q <+: p) : q.dropLast <+: p.dropLast := by
  obtain ⟨r, rfl⟩ := h
  by_cases hr : r = []
  · simp [hr]
  · rw [List.dropLast_append_of_ne_nil hr]
    exact (List.dropLast_prefix q).trans (List.prefix_append _ _)

theorem prefix_dropLast_of_ne {p q : Path} (h : q <+: p) (hne : q ≠ p) : q <+: p.dropLast := by
  rcases List.eq_nil_or_concat' p with rfl | ⟨d, n, rfl⟩
  · exact absurd (List.prefix_nil.mp h) hne
  · simpa using (List.prefix_concat_iff.mp h).resolve_left hne

theorem PlainPath.of_isPrefix {p q : Path} (h : q <+: p) (hp : PlainPath p) : PlainPath q :=
  fun n hn => hp n (h.mem hn)

theorem PlainPath.dropLast {p : Path} (hp : PlainPath p) : PlainPath p.dropLast :=
  hp.of_isPrefix (List.dropLast_prefix p)

/-- No component is a marker. -/
def NoMarker (p : Path) : Prop := ∀ n ∈ p, ¬ IsMarker n

namespace NoMarker

variable {p q d : Path} {n : Name}

theorem of_isPrefix (hqp : q <+: p) (hp : NoMarker p) : NoMarker q := fun n hn => hp n (hqp.mem hn)

theorem dropLast (hp : NoMarker p) : NoMarker p.dropLast := hp.of_isPrefix (List.dropLast_prefix p)

theorem cons (hp : NoMarker p) (hn : ¬ IsMarker n) : NoMarker (n :: p) := by
  intro m hm
  rcases List.mem_cons.mp hm with rfl | hm
  · exact hn
  · exact hp m hm

theorem concat (hp : NoMarker p) (hn : ¬ IsMarker n) : NoMarker (p ++ [n]) := by
  intro m hm
  rcases List.mem_append.mp hm with hm | hm
  · exact hp m hm
  · rwa [List.mem_singleton.mp hm]

theorem not_isMarker_name (hp : NoMarker p) : ¬ IsMarker (splitPath p).2 := by
  rcases List.eq_nil_or_concat p with rfl | ⟨d, n, rfl⟩
  · decide
  · simpa [splitPath] using hp n (by simp)

theorem ne_opaquePath (hp : NoMarker p) : p ≠ opaquePath d := by
  rintro rfl
  exact hp _ (List.mem_append_right _ (List.mem_singleton_self _)) isMarker_opaqueWhiteout

/-- The whiteout of a path is no opaque marker. -/
theorem whiteoutPath_ne_opaquePath (hp : NoMarker p) : whiteoutPath p ≠ opaquePath d := by
  intro h
  have hlast : whiteoutPrefix ++ (splitPath p).2 = opaqueWhiteout := by
    simpa using (List.append_inj' h rfl).2
  exact whiteout_ne_opaqueWhiteout hp.not_isMarker_name hlast

end NoMarker

theorem PlainPath.noMarker {p : Path} (hp : PlainPath p) : NoMarker p := fun n hn => (hp n hn).2

/-- No component is a marker and the first is not empty. On these paths every
path has a whiteout marker of its own: without the second condition the marker of
the path `[""]` would also be that of the root, whose name `split_path` leaves
empty. -/
def Unmarked (p : Path) : Prop := NoMarker p ∧ p.head? ≠ some []

instance (p : Path) : Decidable (NoMarker p) := inferInstanceAs (Decidable (∀ n ∈ p, _))

instance (p : Path) : Decidable (Unmarked p) := inferInstanceAs (Decidable (_ ∧ _))

theorem PlainPath.unmarked {p : Path} (hp : PlainPath p) : Unmarked p := by
  refine ⟨fun n hn => (hp n hn).2, fun h => ?_⟩
  exact (hp [] (List.mem_of_head? h)).1.1 rfl

namespace Unmarked

variable {p q d : Path} {n : Name}

theorem of_isPrefix (hqp : q <+: p) (hp : Unmarked p) : Unmarked q := by
  refine ⟨hp.1.of_isPrefix hqp, fun h => hp.2 ?_⟩
  obtain ⟨r, rfl⟩ := hqp
  cases q with
  | nil => simp at h
  | cons m q => simpa using h

theorem dropLast (hp : Unmarked p) : Unmarked p.dropLast := hp.of_isPrefix (List.dropLast_prefix p)

/-- Going down from a path other than the root. -/
theorem concat (hp : Unmarked p) (hne : p ≠ []) (hn : ¬ IsMarker n) : Unmarked (p ++ [n]) := by
  refine ⟨hp.1.concat hn, fun h => hp.2 ?_⟩
  rwa [List.head?_append_of_ne_nil _ hne] at h

theorem not_isMarker_name (hp : Unmarked p) : ¬ IsMarker (splitPath p).2 := hp.1.not_isMarker_name

theorem ne_whiteoutPath (hp : Unmarked p) : p ≠ whiteoutPath q := by
  rintro rfl
  exact hp.1 _ (List.mem_append_right _ (List.mem_singleton_self _))
    (isMarker_whiteoutPrefix_append _)

theorem ne_opaquePath (hp : Unmarked p) : p ≠ opaquePath d := hp.1.ne_opaquePath

theorem whiteoutPath_inj (hp : Unmarked p) (hq : Unmarked q)
    (h : whiteoutPath p = whiteoutPath q) : p = q := by
  have hsplit : splitPath p = splitPath q := by
    have := List.append_inj' h rfl
    simp only [List.cons.injEq, List.append_cancel_left_eq, and_true] at this
    exact Prod.ext this.1 this.2
  rcases List.eq_nil_or_concat p with rfl | ⟨p, n, rfl⟩ <;>
    rcases List.eq_nil_or_concat q with rfl | ⟨q, m, rfl⟩
  · rfl
  · simp only [splitPath, List.dropLast_nil, List.getLastD_nil, List.concat_eq_append,
      List.dropLast_concat, List.getLastD_concat, Prod.mk.injEq] at hsplit
    obtain ⟨rfl, rfl⟩ := hsplit
    exact absurd rfl hq.2
  · simp only [splitPath, List.dropLast_nil, List.getLastD_nil, List.concat_eq_append,
      List.dropLast_concat, List.getLastD_concat, Prod.mk.injEq] at hsplit
    obtain ⟨rfl, rfl⟩ := hsplit
    exact absurd rfl hp.2
  · simpa [splitPath] using hsplit

theorem whiteoutPath_ne_opaquePath (hp : Unmarked p) : whiteoutPath p ≠ opaquePath d :=
  hp.1.whiteoutPath_ne_opaquePath

end Unmarked

end Rspacefs
