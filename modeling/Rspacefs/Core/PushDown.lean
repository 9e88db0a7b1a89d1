import Rspacefs.Core.View

/-!
# Pushing the upper layer down

After a capture, the upper layer of one boot is mounted as the top lower layer of
the next, below an empty upper. The upper is probed by `is_whiteout` and
`is_opaque_above`, a lower by the cached probes; on every path below the root the
two agree, so nothing changes. At the root they differ in one case: `split_path`
gives the root an empty name, so an upper layer with an entry named `.wh.` hides
its own root, and an empty upper does not.
-/

namespace Rspacefs

open LayerFS

variable {p : Path}

/-- The stack after the upper layer was pushed down. -/
def pushDown (upper : Tree) (lower : List Tree) : Stack := ⟨Tree.empty, upper :: lower⟩

/-- Below the root an empty layer decides nothing. -/
theorem verdict_empty (hp : p ≠ []) : Tree.empty.verdict p = none := by
  have hopq : Tree.empty.opaqueAbove p = false := by
    rw [Bool.eq_false_iff, Ne, Tree.opaqueAbove_eq_true]
    rintro ⟨q, -, hq⟩
    simp [opaquePath] at hq
  simp [Tree.verdict, Tree.decision, Tree.hides, hopq, hp, whiteoutPath]

theorem view_pushDown (hp : PlainPath p) (hne : p ≠ []) (upper : Tree) (lower : List Tree) :
    view (pushDown upper lower) p = view ⟨upper, lower⟩ p := by
  obtain ⟨d, n, rfl⟩ := (List.eq_nil_or_concat' p).resolve_left hne
  have hn : ¬ IsMarker (splitPath (d ++ [n])).2 := by
    rw [splitPath_concat]
    exact (hp n (by simp)).2
  rw [view_eq, view_eq]
  change (Tree.empty.verdict _).getD (lowerView (upper :: lower) _) = _
  rw [verdict_empty hne, lowerView_cons, Tree.lowerVerdict_eq_verdict hn]
  rfl

/-- The root is hidden exactly by an upper entry named `.wh.`. -/
theorem view_root (fs : Stack) :
    view fs [] = if (fs.upper.get? [whiteoutPrefix]).isSome then none else some .dir := by
  rw [view_eq, Tree.verdict, Tree.decision, Tree.get?_root]
  change (if (fs.upper.get? [whiteoutPrefix]).isSome then _ else _ : Option _).getD _ = _
  split <;> rfl

/-- Pushing the upper layer down changes no lookup, except of the root when the
upper layer has an entry named `.wh.` there. -/
theorem view_pushDown_eq_iff (upper : Tree) (lower : List Tree) (hp : PlainPath p) :
    view (pushDown upper lower) p = view ⟨upper, lower⟩ p ↔
      ¬ (p = [] ∧ (upper.get? [whiteoutPrefix]).isSome) := by
  by_cases hne : p = []
  · subst hne
    have hempty : (Tree.empty.get? [whiteoutPrefix]).isSome = false := by simp
    rw [view_root, view_root]
    simp only [pushDown, hempty, true_and]
    cases (upper.get? [whiteoutPrefix]).isSome <;> simp
  · simp [hne, view_pushDown hp hne]

theorem view_pushDown_eq_iff_etc :
    view (pushDown (Tree.ofEntries [(["etc".toList], .dir)]) []) ["etc".toList] =
        view ⟨Tree.ofEntries [(["etc".toList], .dir)], []⟩ ["etc".toList] ↔
      ¬ (["etc".toList] = ([] : Path) ∧
        ((Tree.ofEntries [(["etc".toList], .dir)]).get? [whiteoutPrefix]).isSome) :=
  view_pushDown_eq_iff _ _ (by decide)

/-- An upper layer whose root holds an entry named `.wh.`. -/
def rootMarkerLayer : Tree := Tree.ofEntries [([whiteoutPrefix], .file [])]

/-- With such an upper the root is absent; pushed down, it is a directory. -/
theorem view_pushDown_ne_rootMarker :
    ¬ ∀ (upper : Tree) (lower : List Tree) (p : Path), PlainPath p →
      view (pushDown upper lower) p = view ⟨upper, lower⟩ p := by
  intro h
  have := h rootMarkerLayer [] [] (by decide)
  revert this
  decide

end Rspacefs
