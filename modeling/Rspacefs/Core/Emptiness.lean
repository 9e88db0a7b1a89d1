import Rspacefs.Core.Kinds
import Rspacefs.Core.TreeRun

/-!
# Removing a directory that is not empty

`remove_dir` leaves it to the upper layer to refuse a directory with entries. What
the upper layer holds in a directory and what the merged view lists there are
different things: the upper layer may lack the directory, or hold nothing in it,
while lower layers list names; and it may hold whiteout markers only, where
nothing is listed at all.

## Main definitions

* `ListsNothing` — what the layers hold leaves nothing to list
* `RemovesEmpty` — `remove_dir` removes the directory if it lists as empty, and
  otherwise declines
* `UpperTells` — what the upper layer holds settles whether the directory is empty

## Main results

* `readDir_eq_nil_iff` — the empty listing
* `removesEmpty_iff` — when `remove_dir` does what it should, in any state
* `removesEmpty_runOps_iff` — the same in every state that operations lead to
-/

namespace Rspacefs

open Lib LayerFS

variable {fs : Stack} {d : Path} {l : List Name}

/-- No layer that a listing of `d` reads shows it a name: the upper layer has markers at most,
and, unless it has the opaque marker, every name of the lower layers is whited out in it or not
listed by them. -/
def ListsNothing (fs : Stack) (d : Path) : Prop :=
  ∀ n, ¬ IsMarker n → fs.upper.get? (d ++ [n]) = none ∧
    (fs.upper.get? (opaquePath d) = none → fs.upper.hides (d ++ [n]) = false →
      lowerLists d n fs.lower = false)

theorem readDir_eq_nil_iff (hl : LayerFS.readDir d fs = .ok l) : l = [] ↔ ListsNothing fs d := by
  rw [List.eq_nil_iff_forall_not_mem]
  constructor
  · intro hnil n hn
    have hmem := hnil n
    rw [mem_readDir hn hl, not_or] at hmem
    refine ⟨by simpa using hmem.1, fun hopq hclear => ?_⟩
    rw [Bool.eq_false_iff]
    intro hlists
    exact hmem.2 ⟨hopq, hclear, hlists⟩
  · intro hnothing n hmem
    have hn := not_isMarker_of_mem_readDir hl hmem
    obtain ⟨hentry, hlower⟩ := hnothing n hn
    rcases (mem_readDir hn hl).mp hmem with hsome | ⟨hopq, hclear, hlists⟩
    · simp [hentry] at hsome
    · rw [hlower hopq hclear] at hlists
      cases hlists

/-- `remove_dir` removes a directory whose listing is empty, and declines one whose listing is
not. -/
def RemovesEmpty (fs : Stack) (d : Path) : Prop :=
  ∀ l, LayerFS.readDir d fs = .ok l →
    (l = [] → ∃ fs', (LayerFS.removeDir d).run fs = .ok () fs' ∧
      LayerFS.existsAt d fs' = .ok false) ∧
    (l ≠ [] → Rejects (LayerFS.removeDir d) fs)

/-- What the upper layer holds settles whether `d` goes, as the listing would: a file is in the
way of the listing; or the upper layer holds the directory, with nothing in it exactly if nothing
is listed; or it lacks the directory, and no file of the upper layer is above it exactly if
nothing is listed. -/
def UpperTells (fs : Stack) (d : Path) : Prop :=
  FileInTheWay fs d ∨
    (fs.upper.get? d = some .dir ∧ (fs.upper.children d = [] ↔ ListsNothing fs d)) ∨
    (fs.upper.get? d = none ∧ (¬ Blocked fs d ↔ ListsNothing fs d))

/-- A visible directory is removed exactly if the upper layer holds it with nothing in it, or
lacks it and can take its whiteout. -/
theorem returns_removeDir_of_view (hne : d ≠ []) (hview : view fs d = some .dir) :
    Returns (LayerFS.removeDir d) fs ↔
      (fs.upper.get? d = some .dir ∧ fs.upper.children d = []) ∨
        (fs.upper.get? d = none ∧ ¬ Blocked fs d) := by
  rw [returns_removeDir_iff, or_comm]
  refine or_congr ?_ (and_congr_right fun hnone => ?_)
  · simp [hne]
  · simp [existsInLower_of_view hnone (by simp [hview])]

/-- A call that does not return is refused. -/
theorem refuses_removeDir_of_not_returns (hne : d ≠ []) (hview : view fs d = some .dir)
    (h : ¬ Returns (LayerFS.removeDir d) fs) : Refuses (LayerFS.removeDir d) fs := by
  rw [returns_removeDir_of_view hne hview] at h
  push Not at h
  apply NoRemoveDir.refuses
  cases hentry : fs.upper.get? d with
  | none =>
    exact Or.inr (Or.inr ⟨hentry, existsInLower_of_view hentry (by simp [hview]), h.2 hentry⟩)
  | some n =>
    cases n with
    | file c => exact Or.inl ⟨c, hentry⟩
    | dir => exact Or.inr (Or.inl ⟨hentry, h.1 hentry⟩)

/-- When `remove_dir` goes by what is listed. -/
theorem removesEmpty_iff (hne : d ≠ []) (hview : view fs d = some .dir) :
    RemovesEmpty fs d ↔ UpperTells fs d := by
  -- the upper layer lacks the directory or holds it
  have hkind : fs.upper.get? d = some .dir ∨ fs.upper.get? d = none := by
    cases hentry : fs.upper.get? d with
    | none => exact Or.inr rfl
    | some n =>
      rw [view_of_upper (hides_of_view hview) hentry] at hview
      exact Or.inl hview
  have hgoes : ((Returns (LayerFS.removeDir d) fs ↔ ListsNothing fs d) ↔
      (fs.upper.get? d = some .dir ∧ (fs.upper.children d = [] ↔ ListsNothing fs d)) ∨
      (fs.upper.get? d = none ∧ (¬ Blocked fs d ↔ ListsNothing fs d))) := by
    rw [returns_removeDir_of_view hne hview]
    rcases hkind with hdir | hnone
    · simp [hdir]
    · simp [hnone]
  rw [UpperTells, ← hgoes]
  by_cases hfile : FileInTheWay fs d
  · -- what cannot be listed is neither empty nor not empty
    have herror := hfile.readDir
    simp only [hfile, true_or, iff_true]
    intro l hl
    rw [herror] at hl
    cases hl
  · obtain ⟨l, hl⟩ := exists_readDir hfile
    simp only [hfile, false_or]
    rw [← readDir_eq_nil_iff hl]
    constructor
    · intro h
      obtain ⟨hempty, hfull⟩ := h l hl
      constructor
      · intro hreturns
        by_contra hl'
        exact (hfull hl').not_returns hreturns
      · intro hl'
        obtain ⟨fs', hrun, -⟩ := hempty hl'
        exact ⟨(), fs', hrun⟩
    · intro hreturns l' hl'
      obtain rfl : l = l' := Except.ok.inj (hl.symm.trans hl')
      constructor
      · intro hempty
        obtain ⟨⟨⟩, fs', hrun⟩ := hreturns.mpr hempty
        refine ⟨fs', hrun, ?_⟩
        rw [LayerFS.existsAt_eq, ((removeDir_spec fs d).ok rfl hrun).view_eq_none]
        rfl
      · intro hfull
        exact Rejects.of_refuses
          (refuses_removeDir_of_not_returns hne hview fun h => hfull (hreturns.mp h))

/-- In every state that operations on an empty upper layer lead to, `remove_dir` removes exactly
the directories that list as empty, if and only if what the upper layer holds tells. -/
theorem removesEmpty_runOps_iff (lower : List Tree) (ops : List Op) (d : Path) (hne : d ≠ [])
    (hview : view (runOps ⟨Tree.empty, lower⟩ ops) d = some .dir) :
    RemovesEmpty (runOps ⟨Tree.empty, lower⟩ ops) d ↔
      UpperTells (runOps ⟨Tree.empty, lower⟩ ops) d :=
  removesEmpty_iff hne hview

/-- The empty directory of an image layer goes behind a whiteout; made anew it is in the upper
layer, and goes again. -/
theorem removesEmpty_runOps_iff_tmp :
    RemovesEmpty (runOps ⟨Tree.empty, tmpImage⟩ []) ["tmp".toList] ∧
      RemovesEmpty (runOps ⟨Tree.empty, tmpImage⟩
        [.removeDir ["tmp".toList], .createDir ["tmp".toList]]) ["tmp".toList] := by
  constructor
  · apply (removesEmpty_runOps_iff tmpImage [] ["tmp".toList] (by decide) (by decide)).mpr
    refine Or.inr (Or.inr ⟨by decide, iff_of_true ?_ fun n _ => ⟨?_, fun _ _ => ?_⟩⟩)
    · exact not_blocked_of_parent (Tree.get?_root _)
    · simp [runOps]
    · exact lowerLists_of_childless childless_tmpImage
  · apply (removesEmpty_runOps_iff tmpImage [.removeDir ["tmp".toList], .createDir ["tmp".toList]]
      ["tmp".toList] (by decide) (by decide)).mpr
    refine Or.inr (Or.inl ⟨by decide, iff_of_true (by decide) fun n _ => ⟨?_, fun _ _ => ?_⟩⟩)
    · have hempty : (runOps ⟨Tree.empty, tmpImage⟩ [.removeDir ["tmp".toList],
          .createDir ["tmp".toList]]).upper.children ["tmp".toList] = [] := by decide
      exact PathMap.children_eq_nil.mp hempty n
    · have hlower : (runOps ⟨Tree.empty, tmpImage⟩ [.removeDir ["tmp".toList],
          .createDir ["tmp".toList]]).lower = tmpImage := rfl
      rw [hlower]
      exact lowerLists_of_childless childless_tmpImage

/-- The directory `etc` of an image layer is removed with the file in it. -/
theorem not_removesEmpty_etc :
    ¬ ∀ (lower : List Tree) (ops : List Op) (d : Path), PlainPath d → d ≠ [] →
      view (runOps ⟨Tree.empty, lower⟩ ops) d = some .dir →
      RemovesEmpty (runOps ⟨Tree.empty, lower⟩ ops) d := by
  intro h
  have hetc := h hostsStack.lower [] ["etc".toList] (by decide) (by decide) (by decide)
  obtain ⟨e, fs', hrun, -⟩ := (hetc ["hosts".toList] rfl).2 (by decide)
  cases hrun

end Rspacefs
