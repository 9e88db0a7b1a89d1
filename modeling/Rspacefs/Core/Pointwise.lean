import Rspacefs.Core.Effects
import Rspacefs.Core.Update

/-!
# The mutators are pointwise updates of the merged view

A mutator touches several entries of the upper layer: parent directories it has
to make, the whiteout marker, the entry. When the directories above the path are
visible already, making them in the upper layer does not show, and the merged
view changes at the one path.

## Main definitions

* `AncestorsVisible` — every proper ancestor views as a directory
* `Pointwise` — the view changed to a given value at one path and nowhere else

## Main results

* `pointwise_of_touched` — from what a method leaves in the upper layer to the view
* `mutators_pointwise` — the five mutators
-/

namespace Rspacefs

open Lib LayerFS

variable {fs fs' fs'' : Stack} {p q s : Path} {n : Node} {c w : Bytes}

/-- Every proper ancestor of `p` views as a directory. -/
def AncestorsVisible (fs : Stack) (p : Path) : Prop :=
  ∀ q, q <+: p → q ≠ p → view fs q = some .dir

theorem ancestorsVisible_iff :
    AncestorsVisible fs p ↔ ∀ q ∈ p.inits, q ≠ p → view fs q = some .dir := by
  simp only [AncestorsVisible, List.mem_inits]

instance (fs : Stack) (p : Path) : Decidable (AncestorsVisible fs p) :=
  decidable_of_iff _ ancestorsVisible_iff.symm

/-- The view became `v` at `p` and is unchanged at every other path a client may
name; the lower layers are untouched. -/
structure Pointwise (fs fs' : Stack) (p : Path) (v : Option Node) : Prop where
  at_path : view fs' p = v
  elsewhere : ∀ q, PlainPath q → q ≠ p → view fs' q = view fs q
  lower : fs'.lower = fs.lower

/-- The markers of other paths are not touched. -/
theorem Touched.get?_whiteoutPath {u u' : Tree} (h : Touched u u' p) (hp : Unmarked p)
    (hq : Unmarked q) (hqp : q ≠ p) : u'.get? (whiteoutPath q) = u.get? (whiteoutPath q) := by
  refine (h _ hp.ne_whiteoutPath.symm
    fun he => hqp (hq.whiteoutPath_inj hp he)).resolve_right ?_
  rintro ⟨-, -, -, hpre⟩
  exact (hp.dropLast.of_isPrefix hpre).ne_whiteoutPath rfl

theorem Touched.hides {u u' : Tree} (h : Touched u u' p) (hp : Unmarked p) (hq : Unmarked q)
    (hqp : q ≠ p) : u'.hides q = u.hides q := by
  rw [Tree.hides, Tree.hides, h.get?_whiteoutPath hp hq hqp]

theorem Touched.get?_opaquePath {u u' : Tree} (h : Touched u u' p) (hp : Unmarked p) (d : Path) :
    u'.get? (opaquePath d) = u.get? (opaquePath d) := by
  refine (h _ hp.ne_opaquePath.symm hp.whiteoutPath_ne_opaquePath.symm).resolve_right ?_
  rintro ⟨-, -, -, hpre⟩
  exact (hp.dropLast.of_isPrefix hpre).ne_opaquePath rfl

/-- At another path nothing shows, or a directory was gained there. -/
theorem Touched.view_cases (htouched : Touched fs.upper fs'.upper p) (hlower : fs'.lower = fs.lower)
    (hp : Unmarked p) (hq : Unmarked q) (hqp : q ≠ p) :
    (fs'.upper.get? q = fs.upper.get? q ∧ view fs' q = view fs q) ∨
      (fs.upper.get? q = none ∧ fs'.upper.get? q = some .dir ∧ q <+: p.dropLast) := by
  rcases htouched q hqp hq.ne_whiteoutPath with hentry | ⟨hnone, hdir, -, hpre⟩
  · exact Or.inl ⟨hentry, view_of_agree hlower hentry (htouched.get?_whiteoutPath hp hq hqp)
      (htouched.get?_opaquePath hp)⟩
  · exact Or.inr ⟨hnone, hdir, hpre⟩

/-- A gained directory does not show where one was visible. -/
theorem view_of_touched (hlower : fs'.lower = fs.lower) (htouched : Touched fs.upper fs'.upper p)
    (hp : Unmarked p) (hvisible : AncestorsVisible fs p) (hq : Unmarked q) (hqp : q ≠ p) :
    view fs' q = view fs q := by
  rcases htouched.view_cases hlower hp hq hqp with ⟨-, hsame⟩ | ⟨-, hdir, hpre⟩
  · exact hsame
  · -- `q` was gained: it is an ancestor of `p`, so it was a visible directory
    have hview := hvisible q (hpre.trans (List.dropLast_prefix p)) hqp
    have hhides : fs'.upper.hides q = false := by
      rw [htouched.hides hp hq hqp]
      exact hides_of_view hview
    rw [view_of_upper hhides hdir, hview]

/-- From what a method leaves in the upper layer to the view. -/
theorem Placed.pointwise (h : Placed fs fs' p n) (hp : PlainPath p)
    (hvisible : AncestorsVisible fs p) : Pointwise fs fs' p (some n) where
  at_path := view_of_upper (Tree.hides_eq_false.mpr h.marker) h.entry
  elsewhere := fun _ hq hqp =>
    view_of_touched h.lower h.touched hp.unmarked hvisible hq.unmarked hqp
  lower := h.lower

theorem existsInLower_eq_false :
    existsInLower p fs = false ↔ ∀ t ∈ fs.lower, t.get? p = none := by
  simp [existsInLower]

/-- What the upper layer does not show comes from a lower one. -/
theorem existsInLower_of_view (hnone : fs.upper.get? p = none) (hview : view fs p ≠ none) :
    existsInLower p fs = true := by
  by_contra hlower
  rw [Bool.not_eq_true, existsInLower_eq_false] at hlower
  obtain ⟨n, hn⟩ := Option.ne_none_iff_exists'.mp hview
  rw [view_of_passed (hides_of_view hn) hnone, lowerView_of_forall_none hlower, ite_self] at hview
  exact hview rfl

theorem Removed.view_eq_none (h : Removed fs fs' p) : view fs' p = none := by
  cases hhides : fs'.upper.hides p with
  | true => exact view_of_hides hhides
  | false =>
    have hlower : existsInLower p fs = false := by
      rw [Bool.eq_false_iff]
      intro hexists
      rw [h.marker hexists] at hhides
      cases hhides
    rw [view_of_passed hhides h.entry, h.lower,
      lowerView_of_forall_none (existsInLower_eq_false.mp hlower), ite_self]

theorem Removed.pointwise (h : Removed fs fs' p) (hp : PlainPath p)
    (hvisible : AncestorsVisible fs p) : Pointwise fs fs' p none where
  at_path := h.view_eq_none
  elsewhere := fun _ hq hqp =>
    view_of_touched h.lower h.touched hp.unmarked hvisible hq.unmarked hqp
  lower := h.lower

/-- `create_file`, or `append_file`, and then writing `w` through the handle it
returned. -/
def thenWrite (x : VfsM Stack Writer) (w : Bytes) : VfsM Stack Unit := do
  let writer ← x
  FileSystem.writeAll writer w

/-- The mutators are pointwise updates of the merged view. -/
theorem mutators_pointwise (fs fs' : Stack) (p : Path) (hp : PlainPath p) (hne : p ≠ [])
    (hvisible : AncestorsVisible fs p) :
    (∀ w, (thenWrite (LayerFS.createFile p) w).run fs = .ok () fs' →
      Pointwise fs fs' p (some (.file w))) ∧
    (∀ w c, view fs p = some (.file c) →
      (thenWrite (LayerFS.appendFile p) w).run fs = .ok () fs' →
      Pointwise fs fs' p (some (.file (c ++ w)))) ∧
    ((LayerFS.createDir p).run fs = .ok () fs' → Pointwise fs fs' p (some .dir)) ∧
    ((LayerFS.removeFile p).run fs = .ok () fs' → Pointwise fs fs' p none) ∧
    (∀ s, (LayerFS.copyFile s p).run fs = .ok () fs' →
      ∃ c, view fs s = some (.file c) ∧ Pointwise fs fs' p (some (.file c))) := by
  refine ⟨fun w hrun => ?_, fun w c hview hrun => ?_, fun hrun => ?_, fun hrun => ?_,
    fun s hrun => ?_⟩
  · exact ((writeNew_spec (createFile_spec fs p)).ok rfl hrun).pointwise hp hvisible
  · exact ((appendFile_spec hne hview).ok rfl hrun).pointwise hp hvisible
  · exact ((createDir_spec fs p).ok rfl hrun).pointwise hp hvisible
  · exact ((removeFile_spec fs p).ok rfl hrun).pointwise hp hvisible
  · obtain ⟨c, hview, hplaced⟩ := (copyFile_spec fs s p).ok rfl hrun
    exact ⟨c, hview, hplaced.pointwise hp hvisible⟩

/-- An image layer with one file under `/etc`, below an empty upper layer. -/
def hostsStack : Stack :=
  ⟨Tree.empty, [Tree.ofEntries [(["etc".toList], .dir),
    (["etc".toList, "hosts".toList], .file [1])]]⟩

theorem mutators_pointwise_hosts :
    view hostsStack ["etc".toList, "hosts".toList] = some (.file [1]) ∧
    ∃ fs', (thenWrite (LayerFS.appendFile ["etc".toList, "hosts".toList]) [2]).run hostsStack =
        .ok () fs' ∧
      Pointwise hostsStack fs' ["etc".toList, "hosts".toList] (some (.file [1, 2])) := by
  have hview : view hostsStack ["etc".toList, "hosts".toList] = some (.file [1]) := by decide
  refine ⟨hview, _, rfl, ?_⟩
  exact (mutators_pointwise hostsStack _ _ (by decide) (by decide) (by decide)).2.1 _ _ hview rfl

end Rspacefs
