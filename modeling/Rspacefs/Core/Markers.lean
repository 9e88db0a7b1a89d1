import Rspacefs.Core.Gaps

/-!
# Marker names on the merged side

A whiteout is a file of the upper layer under a reserved name, and nothing keeps a
client from using that name. Listings leave markers out; every other method takes a
path with a marker in it for a path like any other, so that a file can be hidden by
creating its marker and a whiteout taken back by removing it.

## Main definitions

* `Leaves` — if the call returns, every path shows what it did
* `OutOfReach` — a path does not exist, and no call on it shows anywhere
* `Idle` — what the entry at a path hides, as a marker, is not there anyway
* `Inert` — the condition on the layers

## Main results

* `view_drop_iff` — when dropping a hidden entry of the upper layer does not show
* `outOfReach_iff` — when a path is out of reach
-/

namespace Rspacefs

open Lib LayerFS

variable {fs fs' : Stack} {p q : Path} {c : Bytes}

/-- If the call returns, every path shows what it did. -/
def Leaves {α : Type} (x : VfsM Stack α) (fs : Stack) : Prop :=
  ∀ a fs', x.run fs = .ok a fs' → ∀ q, view fs' q = view fs q

theorem Leaves.of_not_returns {α : Type} {x : VfsM Stack α} (h : ¬ Returns x fs) : Leaves x fs := by
  intro a fs' hrun
  exact absurd ⟨a, fs', hrun⟩ h

/-- The path does not exist, and each call on it fails or shows nowhere. -/
structure OutOfReach (fs : Stack) (p : Path) : Prop where
  absent : LayerFS.existsAt p fs = .ok false
  createFile : Leaves (LayerFS.createFile p) fs
  createDir : Leaves (LayerFS.createDir p) fs
  appendFile : Leaves (LayerFS.appendFile p) fs
  removeFile : Leaves (LayerFS.removeFile p) fs
  copyFile : ∀ src, Leaves (LayerFS.copyFile src p) fs
  moveFile : ∀ src, Leaves (LayerFS.moveFile src p) fs

/-! ### Dropping an entry that is hidden -/

/-- An opaque marker other than the entry at `p` stands above `q`. -/
def OpaqueBut (fs : Stack) (p q : Path) : Prop :=
  ∃ d, d <+: q.dropLast ∧ opaquePath d ≠ p ∧ (fs.upper.get? (opaquePath d)).isSome

/-- What the entry at `p` hides as a whiteout of a path, or as the opaque marker above one, is
held by no layer that would show it. -/
structure Idle (fs : Stack) (p : Path) : Prop where
  entry : ∀ q, whiteoutPath q = p → fs.upper.get? q = none
  whiteout : ∀ q, whiteoutPath q = p → ¬ OpaqueBut fs p q → lowerView fs.lower q = none
  isOpaque : ∀ d q, opaquePath d = p → d <+: q.dropLast → fs.upper.hides q = false →
    fs.upper.get? q = none → ¬ OpaqueBut fs p q → lowerView fs.lower q = none

theorem opaqueAbove_drop (hget : fs'.upper.get? = Function.update fs.upper.get? p none) :
    fs'.upper.opaqueAbove q = true ↔ OpaqueBut fs p q := by
  rw [Tree.opaqueAbove_eq_true, OpaqueBut]
  apply exists_congr
  intro d
  apply and_congr_right'
  rw [hget]
  by_cases hd : opaquePath d = p
  · simp [hd]
  · rw [Function.update_of_ne hd]
    exact (and_iff_right hd).symm

theorem hides_drop (hget : fs'.upper.get? = Function.update fs.upper.get? p none)
    (hq : whiteoutPath q ≠ p) : fs'.upper.hides q = fs.upper.hides q := by
  rw [Tree.hides, Tree.hides, hget, Function.update_of_ne hq]

theorem hides_drop_self (hget : fs'.upper.get? = Function.update fs.upper.get? p none)
    (hq : whiteoutPath q = p) : fs'.upper.hides q = false := by
  rw [Tree.hides, hget, hq, Function.update_self]
  rfl

/-- What the layers below show of a path that the upper layer has neither entry nor whiteout
for. -/
theorem view_drop_passed (hget : fs'.upper.get? = Function.update fs.upper.get? p none)
    (hlower : fs'.lower = fs.lower) (hhides : fs'.upper.hides q = false)
    (hnone : fs'.upper.get? q = none) :
    view fs' q = none ↔ (¬ OpaqueBut fs p q → lowerView fs.lower q = none) := by
  rw [view_of_passed hhides hnone, hlower, ← opaqueAbove_drop hget]
  cases fs'.upper.opaqueAbove q <;> simp

theorem Idle.of_view_drop (hget : fs'.upper.get? = Function.update fs.upper.get? p none)
    (hlower : fs'.lower = fs.lower) (hne : p ≠ []) (hsome : (fs.upper.get? p).isSome)
    (hsame : ∀ q, view fs' q = view fs q) : Idle fs p := by
  -- a path that the entry whites out is not shown before
  have hhidden : ∀ q, whiteoutPath q = p → view fs' q = none := by
    intro q hq
    rw [hsame q]
    apply view_of_hides
    rwa [Tree.hides, hq]
  have hentry : ∀ q, whiteoutPath q = p → fs'.upper.get? q = none := by
    intro q hq
    by_contra hthere
    obtain ⟨n, hn⟩ := Option.ne_none_iff_exists'.mp hthere
    have hview := hhidden q hq
    rw [view_of_upper (hides_drop_self hget hq) hn] at hview
    cases hview
  constructor
  · intro q hq
    have hqp : q ≠ p := by
      rintro rfl
      exact whiteoutPath_ne hne hq
    have hnone := hentry q hq
    rwa [hget, Function.update_of_ne hqp] at hnone
  · intro q hq
    exact (view_drop_passed hget hlower (hides_drop_self hget hq) (hentry q hq)).mp (hhidden q hq)
  · intro d q hd hdq hclear hnone
    have hqp : q ≠ p := by
      rintro rfl
      simp [hnone] at hsome
    have hclear' : fs'.upper.hides q = false := by
      by_cases hq : whiteoutPath q = p
      · exact hides_drop_self hget hq
      · rw [hides_drop hget hq, hclear]
    have hnone' : fs'.upper.get? q = none := by rw [hget, Function.update_of_ne hqp, hnone]
    have hopaque : fs.upper.opaqueAbove q = true :=
      Tree.opaqueAbove_eq_true.mpr ⟨d, hdq, hd ▸ hsome⟩
    apply (view_drop_passed hget hlower hclear' hnone').mp
    rw [hsame q, view_of_passed hclear hnone, if_pos hopaque]

theorem Idle.view_drop (hidle : Idle fs p)
    (hget : fs'.upper.get? = Function.update fs.upper.get? p none) (hlower : fs'.lower = fs.lower)
    (hne : p ≠ []) (hhides : fs.upper.hides p = true) (hsome : (fs.upper.get? p).isSome) (q : Path) :
    view fs' q = view fs q := by
  by_cases hqp : q = p
  · subst hqp
    rw [view_of_hides hhides, view_of_hides]
    rw [hides_drop hget (whiteoutPath_ne hne), hhides]
  have hentry : fs'.upper.get? q = fs.upper.get? q := by rw [hget, Function.update_of_ne hqp]
  by_cases hq : whiteoutPath q = p
  · -- hidden before, and nothing to show after
    have hbefore : view fs q = none := view_of_hides (by rwa [Tree.hides, hq])
    rw [hbefore]
    exact (view_drop_passed hget hlower (hides_drop_self hget hq)
      (hentry.trans (hidle.entry q hq))).mpr (hidle.whiteout q hq)
  have hmarker := hides_drop hget hq
  cases hcase : fs.upper.hides q with
  | true => rw [view_of_hides hcase, view_of_hides (hmarker.trans hcase)]
  | false =>
    cases hnode : fs.upper.get? q with
    | some n =>
      rw [view_of_upper hcase hnode, view_of_upper (hmarker.trans hcase) (hentry.trans hnode)]
    | none =>
      by_cases hopq : ∃ d, d <+: q.dropLast ∧ opaquePath d = p
      · obtain ⟨d, hdq, hd⟩ := hopq
        have hopaque : fs.upper.opaqueAbove q = true :=
          Tree.opaqueAbove_eq_true.mpr ⟨d, hdq, hd ▸ hsome⟩
        rw [view_of_passed hcase hnode, if_pos hopaque]
        exact (view_drop_passed hget hlower (hmarker.trans hcase)
          (hentry.trans hnode)).mpr (hidle.isOpaque d q hd hdq hcase hnode)
      · -- the opaque markers above are other entries
        push Not at hopq
        have hopaque : fs'.upper.opaqueAbove q = fs.upper.opaqueAbove q := by
          rw [Bool.eq_iff_iff, opaqueAbove_drop hget, Tree.opaqueAbove_eq_true, OpaqueBut]
          constructor
          · rintro ⟨d, hdq, -, hd⟩
            exact ⟨d, hdq, hd⟩
          · rintro ⟨d, hdq, hd⟩
            exact ⟨d, hdq, hopq d hdq, hd⟩
        rw [view_of_passed hcase hnode, view_of_passed (hmarker.trans hcase)
          (hentry.trans hnode), hopaque, hlower]

/-! ### The methods on a path that does not exist -/

/-- The upper layer can take nothing at the path and, if it has a file there, loses it without
showing anything. -/
structure Inert (fs : Stack) (p : Path) : Prop where
  absent : view fs p = none
  refused : fs.upper.get? p = some .dir ∨ Shut fs p
  idle : ∀ c, fs.upper.get? p = some (.file c) → Idle fs p

/-- Opening for writing what the upper layer has, or nothing has, shows nowhere. -/
theorem leaves_appendFile (h : view fs p = none) : Leaves (LayerFS.appendFile p) fs := by
  intro w fs' hrun q
  rw [run_appendFile, h] at hrun
  by_cases hsome : (fs.upper.get? p).isSome
  · rw [if_pos hsome] at hrun
    obtain ⟨u, hu, rfl⟩ := run_onPart_eq_ok.mp hrun
    obtain ⟨hupper, -⟩ := (Tree.appendFile_spec fs.upper p).ok rfl hu
    rw [hupper]
  · rw [if_neg hsome] at hrun
    cases hrun

/-- A marker that is there is not made again. -/
theorem run_createWhiteout_there (h : fs.upper.hides p = true) :
    (createWhiteout p : VfsM Stack Unit).run fs = .ok () fs := by
  have hparent : (fs.upper.get? (whiteoutPath p).dropLast).isSome := by
    rw [whiteoutPath_dropLast, Tree.get?_dropLast_of_hides h]
    rfl
  refine run_bind_eq_ok.mpr ⟨(), fs, run_ensureUpperParents_there hparent, ?_⟩
  refine run_onPart_eq_ok.mpr ⟨fs.upper, ?_, rfl⟩
  rw [unlessExists, EStateM.run_bind, run_ask, Tree.existsAt_eq]
  have hmarker : (fs.upper.get? (whiteoutPath p)).isSome = true := h
  rw [hmarker]
  rfl

/-- Removing a file that is whited out drops it and nothing else. -/
theorem run_removeFile_hidden (hhides : fs.upper.hides p = true)
    (hfile : fs.upper.get? p = some (.file c)) :
    ∃ fs', (LayerFS.removeFile p : VfsM Stack Unit).run fs = .ok () fs' ∧
      fs'.upper.get? = Function.update fs.upper.get? p none ∧ fs'.lower = fs.lower := by
  obtain ⟨⟨⟩, u, hu⟩ := Tree.returns_removeFile_iff.mpr ⟨c, hfile⟩
  obtain ⟨-, hget⟩ := (Tree.removeFile_spec fs.upper p).ok rfl hu
  have hdrop : (onUpper (whenExists p (FileSystem.removeFile p)) : VfsM Stack Unit).run fs =
      .ok () { fs with upper := u } := by
    refine run_onPart_eq_ok.mpr ⟨u, run_bind_eq_ok.mpr ⟨true, fs.upper, ?_, hu⟩, rfl⟩
    rw [run_ask_eq_ok, Tree.existsAt_eq, hfile]
    exact ⟨rfl, rfl⟩
  have hstill : ({ fs with upper := u } : Stack).upper.hides p = true := by
    rw [hides_drop hget (whiteoutPath_ne (Tree.ne_nil_of_file hfile)), hhides]
  refine ⟨{ fs with upper := u }, ?_, hget, rfl⟩
  refine run_bind_eq_ok.mpr ⟨(), _, hdrop, ?_⟩
  rw [EStateM.run_bind, run_ask]
  change (if existsInLower p { fs with upper := u } = true then createWhiteout p else pure () :
    VfsM Stack Unit).run { fs with upper := u } = _
  split
  · exact run_createWhiteout_there hstill
  · rfl

/-- Where the upper layer has nothing, removing needs a whiteout at most. -/
theorem run_removeFile_missing (hnone : fs.upper.get? p = none)
    (hmarked : existsInLower p fs = true → fs.upper.hides p = true) :
    (LayerFS.removeFile p : VfsM Stack Unit).run fs = .ok () fs := by
  have hskip : (onUpper (whenExists p (FileSystem.removeFile p)) : VfsM Stack Unit).run fs =
      .ok () fs := by
    refine run_onPart_eq_ok.mpr ⟨fs.upper, ?_, rfl⟩
    rw [whenExists, EStateM.run_bind, run_ask, Tree.existsAt_eq, hnone]
    rfl
  refine run_bind_eq_ok.mpr ⟨(), fs, hskip, ?_⟩
  rw [EStateM.run_bind, run_ask]
  change (if existsInLower p fs = true then createWhiteout p else pure () :
    VfsM Stack Unit).run fs = _
  split
  · rename_i hlower
    exact run_createWhiteout_there (hmarked hlower)
  · rfl

theorem not_returns_createFile (h : fs.upper.get? p = some .dir ∨ Shut fs p) :
    ¬ Returns (LayerFS.createFile p : VfsM Stack Writer) fs := by
  rw [returns_createFile_iff]
  rintro ⟨hdir, hshut⟩
  exact h.elim hdir hshut

theorem not_returns_copyFile {src : Path} (h : fs.upper.get? p = some .dir ∨ Shut fs p) :
    ¬ Returns (LayerFS.copyFile src p : VfsM Stack Unit) fs := by
  rw [returns_copyFile_iff]
  rintro ⟨-, hdir, hshut⟩
  exact h.elim hdir hshut

/-- What the upper layer has of a path that does not exist is whited out. -/
theorem hides_of_view_none (hview : view fs p = none) (hsome : (fs.upper.get? p).isSome) :
    fs.upper.hides p = true := by
  by_contra hclear
  rw [Bool.not_eq_true] at hclear
  obtain ⟨n, hn⟩ := Option.isSome_iff_exists.mp hsome
  rw [view_of_upper hclear hn] at hview
  cases hview

/-- Removing a path that does not exist and cannot be created shows nowhere, unless the upper
layer has a file there. -/
theorem Inert.leaves_removeFile (h : Inert fs p) : Leaves (LayerFS.removeFile p) fs := by
  cases hentry : fs.upper.get? p with
  | some n =>
    have hhides := hides_of_view_none h.absent (by simp [hentry])
    cases n with
    | dir =>
      apply Leaves.of_not_returns
      rw [returns_removeFile_iff, hentry]
      simp
    | file c =>
      obtain ⟨fs₁, hrun₁, hget, hlower⟩ := run_removeFile_hidden hhides hentry
      intro a fs' hrun q
      rw [hrun₁] at hrun
      cases hrun
      exact (h.idle c hentry).view_drop hget hlower (Tree.ne_nil_of_file hentry) hhides
        (by simp [hentry]) q
  | none =>
    have hshut : Shut fs p := h.refused.resolve_left (by simp [hentry])
    intro a fs' hrun q
    have hfree : existsInLower p fs = true → ¬ Blocked fs p := by
      rcases returns_removeFile_iff.mp ⟨a, fs', hrun⟩ with ⟨-, hfree⟩ | ⟨c, hc⟩
      · exact hfree
      · rw [hentry] at hc
        cases hc
    -- the marker that would be made is in its place, as a directory
    have hmarked : existsInLower p fs = true → fs.upper.hides p = true := by
      intro hlower
      rw [Tree.hides, hshut.resolve_left (hfree hlower)]
      rfl
    rw [run_removeFile_missing hentry hmarked] at hrun
    cases hrun
    rfl

/-- A path is out of reach exactly if it does not exist, nothing can be created there, and what
the upper layer may have there hides nothing. -/
theorem outOfReach_iff (fs : Stack) (p : Path) : OutOfReach fs p ↔ Inert fs p := by
  constructor
  · intro h
    have habsent : view fs p = none := by
      have hexists := h.absent
      rw [LayerFS.existsAt_eq, Except.ok.injEq] at hexists
      exact Option.isSome_eq_false_iff.mp hexists |> Option.isNone_iff_eq_none.mp
    have hrefused : fs.upper.get? p = some .dir ∨ Shut fs p := by
      by_contra hfree
      rw [not_or] at hfree
      obtain ⟨w, fs', hrun⟩ := returns_createFile_iff.mpr hfree
      -- a file that was created is seen
      have hseen := ((createFile_spec fs p).ok rfl hrun).2.view_eq
      rw [h.createFile w fs' hrun p, habsent] at hseen
      cases hseen
    refine ⟨habsent, hrefused, ?_⟩
    intro c hfile
    have hhides := hides_of_view_none habsent (by simp [hfile])
    obtain ⟨fs', hrun, hget, hlower⟩ := run_removeFile_hidden hhides hfile
    exact Idle.of_view_drop hget hlower (Tree.ne_nil_of_file hfile) (by simp [hfile])
      (h.removeFile () fs' hrun)
  · intro h
    constructor
    · rw [LayerFS.existsAt_eq, h.absent]
      rfl
    · exact Leaves.of_not_returns (not_returns_createFile h.refused)
    · apply Leaves.of_not_returns
      rw [returns_createDir_iff]
      rintro ⟨hnone, hshut⟩
      rcases h.refused with hdir | hshut'
      · rw [hdir] at hnone
        cases hnone
      · exact hshut hshut'
    · exact leaves_appendFile h.absent
    · exact h.leaves_removeFile
    · intro src
      exact Leaves.of_not_returns (not_returns_copyFile h.refused)
    · intro src
      apply Leaves.of_not_returns
      rw [LayerFS.moveFile, Returns.bind_iff]
      rintro ⟨a, fs₁, hrun, -⟩
      exact not_returns_copyFile h.refused ⟨a, fs₁, hrun⟩

/-- A client creates the whiteout of `etc`. -/
theorem not_outOfReach_etc :
    ¬ ∀ (fs : Stack) (p : Path), ¬ NoMarker p → OutOfReach fs p := by
  intro h
  have hreach := h hostsStack [".wh.etc".toList] (by decide)
  obtain ⟨w, fs', hrun⟩ : Returns (LayerFS.createFile [".wh.etc".toList] : VfsM Stack Writer)
      hostsStack := ⟨_, _, rfl⟩
  have hplaced := ((createFile_spec hostsStack [".wh.etc".toList]).ok rfl hrun).2
  have hhidden : view fs' ["etc".toList] = none := by
    apply view_of_hides
    rw [Tree.hides]
    exact Option.isSome_iff_exists.mpr ⟨_, hplaced.entry⟩
  rw [hreach.createFile w fs' hrun ["etc".toList]] at hhidden
  revert hhidden
  decide

end Rspacefs
