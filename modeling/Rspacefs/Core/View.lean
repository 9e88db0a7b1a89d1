import Rspacefs.Core.Layer
import Rspacefs.Vfs.Tree

/-!
# The merged view

Over layers that are trees, every probe of `resolve` succeeds, and each layer
either decides a path or passes it on: a whiteout or an opaque marker above the
path decides that it is absent, an entry decides that it is there. The merged
view of a path is the first decision from the top. This file states that
(`view_eq`) and reads `exists`, `metadata` and `open_file` off the view, so that
later files never unfold `resolve`.

## Main definitions

* `Stack` — a `LayerFS` over trees
* `LayerFS.view` — what `resolve` reports: absent, a directory, or a file with its bytes
* `Tree.verdict`, `Tree.lowerVerdict` — one layer's decision about a path, as the
  upper layer and the lower layers are probed
* `lowerView` — the decision of a list of lower layers

## Main results

* `LayerFS.view_eq` — the view is the first decision
* `LayerFS.existsAt_eq`, `LayerFS.metadata_eq`, `LayerFS.openFile_eq` — the reading
  methods are functions of the view
* `Tree.lowerVerdict_eq_verdict` — cached and uncached probes agree on a name that
  is not itself a marker
-/

namespace Rspacefs

open Lib

/-- A `LayerFS` whose layers are trees. -/
abbrev Stack := LayerFS Tree Tree

namespace Tree

variable {t u : Tree} {p q d : Path} {n : Name}

/-- The layer holds the whiteout marker of `p`. -/
def hides (t : Tree) (p : Path) : Bool := (t.get? (whiteoutPath p)).isSome

/-- An opaque marker in the parent of `p` or above. -/
def opaqueAbove (t : Tree) (p : Path) : Bool :=
  p.dropLast.inits.any fun q => (t.get? (opaquePath q)).isSome

/-- What a layer says about a path once the whiteout probe gave `hidden`: `some`
decides, `none` leaves it to the layers below. -/
def decision (hidden : Bool) (t : Tree) (p : Path) : Option (Option Node) :=
  if hidden then some none
  else match t.get? p with
    | some n => some (some n)
    | none => if t.opaqueAbove p then some none else none

/-- The decision of a layer probed as the upper layer is. -/
def verdict (t : Tree) (p : Path) : Option (Option Node) := t.decision (t.hides p) p

/-- The decision of a layer probed as a lower layer is: the enumeration of
whiteouts skips the opaque marker. -/
def lowerVerdict (t : Tree) (p : Path) : Option (Option Node) :=
  t.decision (t.hides p && decide (whiteoutPrefix ++ (splitPath p).2 ≠ opaqueWhiteout)) p

theorem opaqueAbove_eq_true :
    t.opaqueAbove p = true ↔ ∃ q, q <+: p.dropLast ∧ (t.get? (opaquePath q)).isSome := by
  simp only [opaqueAbove, List.any_eq_true, List.mem_inits]

@[simp] theorem opaqueAbove_concat :
    t.opaqueAbove (d ++ [n]) = true ↔ ∃ q, q <+: d ∧ (t.get? (opaquePath q)).isSome := by
  rw [opaqueAbove_eq_true, List.dropLast_concat]

/-- Cached and uncached probes agree on a name that is not a marker. -/
theorem lowerVerdict_eq_verdict (h : ¬ IsMarker (splitPath p).2) :
    t.lowerVerdict p = t.verdict p := by
  simp [lowerVerdict, verdict, whiteout_ne_opaqueWhiteout h]

/-! ### The probes on a tree -/

theorem isWhiteout_eq (t : Tree) (p : Path) : LayerFS.isWhiteout p t = .ok (t.hides p) := rfl

theorem opaqueWalk_eq (t : Tree) (up : List Name) :
    LayerFS.opaqueWalk t up =
      .ok (up.reverse.inits.any fun q => (t.get? (opaquePath q)).isSome) := by
  induction up with
  | nil => simp [LayerFS.opaqueWalk]
  | cons n up ih =>
    rw [LayerFS.opaqueWalk, existsAt_eq, ih]
    cases h : (t.get? (opaquePath (n :: up).reverse)).isSome <;>
      simp_all [List.inits_append, bind, Except.bind, pure, Except.pure]

theorem isOpaqueAbove_eq (t : Tree) (p : Path) :
    LayerFS.isOpaqueAbove p t = .ok (t.opaqueAbove p) := by
  rw [LayerFS.isOpaqueAbove, opaqueWalk_eq, List.reverse_reverse]
  rfl

theorem lowerOpaqueWalk_eq (t : Tree) (up : List Name) :
    LayerFS.lowerOpaqueWalk t up =
      up.reverse.inits.any fun q => (t.get? (opaquePath q)).isSome := by
  induction up with
  | nil => simp [LayerFS.lowerOpaqueWalk]
  | cons n up ih =>
    rw [LayerFS.lowerOpaqueWalk, existsAt_eq, ih]
    simp [List.inits_append, Bool.or_comm]

theorem lowerIsOpaqueAbove_eq (t : Tree) (p : Path) :
    LayerFS.lowerIsOpaqueAbove t (splitPath p).1 = .ok (t.opaqueAbove p) := by
  rw [LayerFS.lowerIsOpaqueAbove, lowerOpaqueWalk_eq, List.reverse_reverse]
  rfl

/-- The names collected from a directory are those whose marker it holds. -/
theorem mem_collectWhiteouts :
    n ∈ LayerFS.collectWhiteouts t d ↔
      (t.get? (d ++ [whiteoutPrefix ++ n])).isSome ∧ whiteoutPrefix ++ n ≠ opaqueWhiteout := by
  have hlist : n ∈ (t.children d).filterMap
        (fun m => if m = opaqueWhiteout then none else stripWhiteout m) ↔
      (t.get? (d ++ [whiteoutPrefix ++ n])).isSome ∧ whiteoutPrefix ++ n ≠ opaqueWhiteout := by
    rw [List.mem_filterMap]
    constructor
    · rintro ⟨m, hm, hn⟩
      split at hn
      · cases hn
      · rename_i hopq
        obtain rfl := stripWhiteout_eq_some.mp hn
        exact ⟨PathMap.mem_children.mp hm, hopq⟩
    · rintro ⟨hm, hopq⟩
      exact ⟨_, PathMap.mem_children.mpr hm, by rw [if_neg hopq, stripWhiteout_eq_some]⟩
  -- a directory that is missing, or a file, has no names
  unfold LayerFS.collectWhiteouts
  cases hd : t.get? d with
  | none =>
    have := PathMap.get?_eq_none_of_isPrefix (List.prefix_append d [whiteoutPrefix ++ n]) hd
    simp [hd, this]
  | some m =>
    cases m with
    | file c =>
      have := PathMap.children_eq_nil.mp (children_of_file hd) (whiteoutPrefix ++ n)
      simp [hd, this, readDir_file hd]
    | dir =>
      rw [existsAt_eq, hd, readDir_dir hd]
      simpa using hlist

theorem lowerHasWhiteout_eq (t : Tree) (p : Path) :
    LayerFS.lowerHasWhiteout t (splitPath p).1 (splitPath p).2 =
      .ok (t.hides p && decide (whiteoutPrefix ++ (splitPath p).2 ≠ opaqueWhiteout)) := by
  rw [LayerFS.lowerHasWhiteout, Except.ok.injEq]
  simp only [mem_collectWhiteouts, Bool.decide_and, Bool.decide_eq_true]
  rfl

end Tree

/-- The first decision of a list of lower layers. -/
def lowerView (lower : List Tree) (p : Path) : Option Node :=
  (lower.findSome? (·.lowerVerdict p)).join

@[simp] theorem lowerView_nil (p : Path) : lowerView [] p = none := rfl

/-- A list of lower layers is decided by its first layer, else by the rest. -/
theorem lowerView_cons (t : Tree) (lower : List Tree) (p : Path) :
    lowerView (t :: lower) p = (t.lowerVerdict p).getD (lowerView lower p) := by
  rw [lowerView, List.findSome?_cons]
  cases t.lowerVerdict p <;> rfl

/-- What no lower layer holds is not found in them. -/
theorem lowerView_of_forall_none {lower : List Tree} {p : Path}
    (h : ∀ t ∈ lower, t.get? p = none) : lowerView lower p = none := by
  induction lower with
  | nil => rfl
  | cons t rest ih =>
    rw [lowerView_cons, ih fun s hs => h s (by simp [hs]), Tree.lowerVerdict, Tree.decision,
      h t (by simp)]
    split <;> simp
    split <;> simp

namespace LayerFS

variable {fs : Stack} {p q d : Path} {n : Name}

/-- The entry a resolution points at. -/
def Resolved.node (p : Path) (fs : Stack) : Resolved Tree → Option Node
  | .upper => fs.upper.get? p
  | .lower _ layer => layer.get? p

/-- What `LayerFS` reports for a path through `resolve`: absent, a directory, or a
file with its bytes. -/
def view (fs : Stack) (p : Path) : Option Node :=
  match resolve p fs with
  | .ok (some resolved) => resolved.node p fs
  | _ => none

/-- The lower loop ends in the layers' first decision. -/
theorem resolveLower_eq (p : Path) (lower : List Tree) (i : Nat) :
    ∃ r, resolveLower p i lower = .ok r ∧ r.isSome = (lowerView lower p).isSome ∧
      ∀ x ∈ r, ∀ fs : Stack, x.node p fs = lowerView lower p := by
  induction lower generalizing i with
  | nil => exact ⟨none, rfl, rfl, by simp⟩
  | cons t rest ih =>
    obtain ⟨r, hr, hsome, hnode⟩ := ih (i + 1)
    have hunfold : resolveLower p i (t :: rest) = (do
        if ← lowerHasWhiteout t (splitPath p).1 (splitPath p).2 then return none
        if ← FileSystem.existsAt t p then return some (.lower i t)
        if ← lowerIsOpaqueAbove t (splitPath p).1 then return none
        resolveLower p (i + 1) rest) := rfl
    rw [hunfold, Tree.lowerHasWhiteout_eq, Tree.existsAt_eq, Tree.lowerIsOpaqueAbove_eq, hr]
    rw [lowerView, List.findSome?_cons, Tree.lowerVerdict, Tree.decision]
    generalize (t.hides p && decide (whiteoutPrefix ++ (splitPath p).2 ≠ opaqueWhiteout)) = hidden
    cases hidden with
    | true => exact ⟨none, rfl, rfl, by simp⟩
    | false =>
      cases ht : t.get? p with
      | some node => exact ⟨some (.lower i t), rfl, rfl, by simp [Resolved.node, ht]⟩
      | none =>
        cases t.opaqueAbove p with
        | true => exact ⟨none, rfl, rfl, by simp⟩
        | false => exact ⟨r, rfl, hsome, hnode⟩

/-- `resolve` finds the path exactly when the first decision is an entry, and then
points at that entry. -/
theorem resolve_eq (fs : Stack) (p : Path) :
    ∃ r, resolve p fs = .ok r ∧
      r.isSome = (((fs.upper.verdict p).getD (lowerView fs.lower p))).isSome ∧
      ∀ x ∈ r, x.node p fs = (fs.upper.verdict p).getD (lowerView fs.lower p) := by
  obtain ⟨r, hr, hsome, hnode⟩ := resolveLower_eq p fs.lower 0
  rw [resolve, Tree.isWhiteout_eq, Tree.existsAt_eq, Tree.isOpaqueAbove_eq, hr]
  rw [Tree.verdict, Tree.decision]
  cases fs.upper.hides p with
  | true => exact ⟨none, rfl, rfl, by simp⟩
  | false =>
    cases hu : fs.upper.get? p with
    | some node => exact ⟨some .upper, rfl, rfl, by simp [Resolved.node, hu]⟩
    | none =>
      cases fs.upper.opaqueAbove p with
      | true => exact ⟨none, rfl, rfl, by simp⟩
      | false => exact ⟨r, rfl, hsome, fun x hx => hnode x hx fs⟩

/-- The merged view is the first decision from the top. -/
theorem view_eq (fs : Stack) (p : Path) :
    view fs p = (fs.upper.verdict p).getD (lowerView fs.lower p) := by
  obtain ⟨r, hr, hsome, hnode⟩ := resolve_eq fs p
  cases r with
  | none =>
    rw [Option.isSome_none, eq_comm, Option.isSome_eq_false_iff, Option.isNone_iff_eq_none] at hsome
    rw [view, hr, hsome]
  | some x => simpa [view, hr] using hnode x rfl

/-- The resolution behind a view. -/
theorem resolve_of_view (fs : Stack) (p : Path) :
    ∃ r, resolve p fs = .ok r ∧ r.isSome = (view fs p).isSome ∧
      ∀ x ∈ r, x.node p fs = view fs p := by
  rw [view_eq]
  exact resolve_eq fs p

theorem existsAt_eq (fs : Stack) (p : Path) : existsAt p fs = .ok (view fs p).isSome := by
  obtain ⟨r, hr, hsome, -⟩ := resolve_of_view fs p
  rw [existsAt, hr]
  exact congrArg Except.ok hsome

/-- A resolution reads the entry it points at. -/
theorem Resolved.openFile_eq {x : Resolved Tree} {node : Node} (hx : x.node p fs = some node) :
    x.openFile p fs = .ok node.reader := by
  cases x with
  | upper => exact Tree.openFile_of_some hx
  | lower i t => exact Tree.openFile_of_some hx

theorem Resolved.metadata_eq {x : Resolved Tree} {node : Node} (hx : x.node p fs = some node) :
    x.metadata p fs = .ok ⟨node.fileType, node.len⟩ := by
  cases x with
  | upper => exact Tree.metadata_of_some hx
  | lower i t => exact Tree.metadata_of_some hx

theorem metadata_eq (fs : Stack) (p : Path) :
    metadata p fs = match view fs p with
      | none => .error .fileNotFound
      | some node => .ok ⟨node.fileType, node.len⟩ := by
  obtain ⟨r, hr, hsome, hnode⟩ := resolve_of_view fs p
  rw [metadata, hr]
  cases r with
  | none =>
    rw [Option.isSome_none, eq_comm, Option.isSome_eq_false_iff, Option.isNone_iff_eq_none] at hsome
    rw [hsome]
    rfl
  | some x =>
    obtain ⟨node, hview⟩ := Option.isSome_iff_exists.mp hsome.symm
    have hx := hnode x rfl
    rw [hview] at hx ⊢
    exact Resolved.metadata_eq hx

theorem openFile_eq (fs : Stack) (p : Path) :
    openFile p fs = match view fs p with
      | none => .error .fileNotFound
      | some node => .ok node.reader := by
  obtain ⟨r, hr, hsome, hnode⟩ := resolve_of_view fs p
  rw [openFile, hr]
  cases r with
  | none =>
    rw [Option.isSome_none, eq_comm, Option.isSome_eq_false_iff, Option.isNone_iff_eq_none] at hsome
    rw [hsome]
    rfl
  | some x =>
    obtain ⟨node, hview⟩ := Option.isSome_iff_exists.mp hsome.symm
    have hx := hnode x rfl
    rw [hview] at hx ⊢
    exact Resolved.openFile_eq hx

end LayerFS

end Rspacefs
