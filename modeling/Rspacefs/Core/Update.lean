import Rspacefs.Core.View

/-!
# The merged view under a change of the upper layer

A layer's verdict on a path reads three things: the entry, its whiteout marker,
and the opaque markers above it. A change of the upper layer at a path, or at the
whiteout marker of a path, therefore shows at that path only.

## Main results

* `view_of_agree` — the view of a path depends on what its verdict reads
* `view_update_entry`, `view_update_marker` — a single change shows at one path
* `view_of_upper`, `view_of_hides`, `view_of_passed` — the three cases of a view
-/

namespace Rspacefs

open Lib LayerFS

variable {t u : Tree} {fs fs' : Stack} {p q d : Path} {n : Node} {x : Option Node}

namespace Tree

/-- A verdict reads the entry, its marker and the opaque markers above. -/
theorem verdict_of_agree_above (hentry : t.get? p = u.get? p)
    (hmarker : t.get? (whiteoutPath p) = u.get? (whiteoutPath p))
    (hopq : ∀ d, d <+: p.dropLast → t.get? (opaquePath d) = u.get? (opaquePath d)) :
    t.verdict p = u.verdict p := by
  have hhides : t.hides p = u.hides p := by rw [hides, hides, hmarker]
  have habove : t.opaqueAbove p = u.opaqueAbove p := by
    rw [Bool.eq_iff_iff, opaqueAbove_eq_true, opaqueAbove_eq_true]
    exact exists_congr fun d => and_congr_right fun hd => by rw [hopq d hd]
  rw [verdict, verdict, decision, decision, hentry, hhides, habove]

theorem hides_eq_false : t.hides p = false ↔ t.get? (whiteoutPath p) = none := by
  rw [hides, Option.isSome_eq_false_iff, Option.isNone_iff_eq_none]

/-- The directory that holds a whiteout marker. -/
theorem get?_dropLast_of_hides (h : t.hides p = true) : t.get? p.dropLast = some .dir := by
  obtain ⟨n, hn⟩ := Option.isSome_iff_exists.mp h
  have hparent := get?_parent (by simp [whiteoutPath]) hn
  simpa [whiteoutPath, splitPath] using hparent

end Tree

namespace LayerFS

theorem view_of_agree_above (hlower : fs'.lower = fs.lower)
    (hentry : fs'.upper.get? p = fs.upper.get? p)
    (hmarker : fs'.upper.get? (whiteoutPath p) = fs.upper.get? (whiteoutPath p))
    (hopq : ∀ d, d <+: p.dropLast → fs'.upper.get? (opaquePath d) = fs.upper.get? (opaquePath d)) :
    view fs' p = view fs p := by
  rw [view_eq, view_eq, hlower, Tree.verdict_of_agree_above hentry hmarker hopq]

theorem view_of_agree (hlower : fs'.lower = fs.lower) (hentry : fs'.upper.get? p = fs.upper.get? p)
    (hmarker : fs'.upper.get? (whiteoutPath p) = fs.upper.get? (whiteoutPath p))
    (hopq : ∀ d, fs'.upper.get? (opaquePath d) = fs.upper.get? (opaquePath d)) :
    view fs' p = view fs p :=
  view_of_agree_above hlower hentry hmarker fun d _ => hopq d

/-- Changing an entry shows at its path only. -/
theorem view_update_entry (hlower : fs'.lower = fs.lower)
    (hget : fs'.upper.get? = Function.update fs.upper.get? q x) (hq : Unmarked q) (hpq : p ≠ q) :
    view fs' p = view fs p := by
  refine view_of_agree hlower ?_ ?_ fun d => ?_
  · rw [hget, Function.update_of_ne hpq]
  · rw [hget, Function.update_of_ne hq.ne_whiteoutPath.symm]
  · rw [hget, Function.update_of_ne hq.ne_opaquePath.symm]

/-- Changing a whiteout marker shows at the path it stands for only. -/
theorem view_update_marker (hlower : fs'.lower = fs.lower)
    (hget : fs'.upper.get? = Function.update fs.upper.get? (whiteoutPath q) x) (hq : Unmarked q)
    (hp : Unmarked p) (hpq : p ≠ q) : view fs' p = view fs p := by
  refine view_of_agree hlower ?_ ?_ fun d => ?_
  · rw [hget, Function.update_of_ne hp.ne_whiteoutPath]
  · rw [hget, Function.update_of_ne fun h => hpq (hp.whiteoutPath_inj hq h)]
  · rw [hget, Function.update_of_ne hq.whiteoutPath_ne_opaquePath.symm]

/-! ### The three cases of a view -/

theorem view_of_hides (h : fs.upper.hides p = true) : view fs p = none := by
  rw [view_eq, Tree.verdict, Tree.decision, if_pos h]
  rfl

theorem view_of_upper (h : fs.upper.hides p = false) (hn : fs.upper.get? p = some n) :
    view fs p = some n := by
  rw [view_eq, Tree.verdict, Tree.decision, h, hn]
  rfl

/-- A path the upper layer neither holds nor hides. -/
theorem view_of_passed (h : fs.upper.hides p = false) (hn : fs.upper.get? p = none) :
    view fs p = if fs.upper.opaqueAbove p then none else lowerView fs.lower p := by
  rw [view_eq, Tree.verdict, Tree.decision, h, hn]
  cases fs.upper.opaqueAbove p <;> rfl

/-- What is visible is not hidden. -/
theorem hides_of_view (h : view fs p = some n) : fs.upper.hides p = false := by
  rw [Bool.eq_false_iff]
  intro hhides
  rw [view_of_hides hhides] at h
  cases h

end LayerFS

end Rspacefs
