import Rspacefs.Core.Halting
import Rspacefs.Core.Stays

/-!
# Moving a directory

`move_dir` copies what the source shows to the destination and then removes the source. Neither
half undoes the other, so what the two leave can be put together from what each of them changes
below one path.

The removal leaves a whiteout for the source itself, but none for what was below it: a lookup
asks for the marker of the path and for opaque markers above it, never for a whiteout of a
directory above. What lower layers hold below the source is therefore still there to be seen
after the move.

## Main definitions

* `DirMoved` — the directory is at the destination and not at the source, and nothing else shows
* `MovesDir` — with enough frames, `move_dir` returns and moves the directory
* `Movable` — the condition on the layers

## Main results

* `movesDir_iff` — `move_dir` moves the directory exactly if it is movable
-/

namespace Rspacefs

open Lib LayerFS

variable {fs fs' fs₁ : Stack} {r src dest : Path} {frames : Nat}

/-! ### What the move is to do -/

/-- Every path at and below `dest` shows what it did at `src`, nothing is shown there any more,
and elsewhere every path shows what it did. -/
structure DirMoved (fs fs' : Stack) (src dest : Path) : Prop where
  arrived : ∀ r, NoMarker r → view fs' (dest ++ r) = view fs (src ++ r)
  gone : ∀ r, NoMarker r → view fs' (src ++ r) = none
  elsewhere : ∀ q, Unmarked q → ¬ src <+: q → ¬ dest <+: q → view fs' q = view fs q

/-- With enough frames, `move_dir` returns and the directory is moved. -/
def MovesDir (fs : Stack) (src dest : Path) : Prop :=
  ∃ N, ∀ frames ≥ N, ∃ fs',
    (LayerFS.moveDir frames src dest : VfsM Stack Unit).run fs = .ok () fs' ∧
      DirMoved fs fs' src dest

/-- The source can be removed without anything showing below it, or in the gaps above it; and the
destination can take what is shown at the source, in the place of nothing else. -/
structure Movable (fs : Stack) (src dest : Path) : Prop extends Removable fs src where
  gaps : GapsShow fs src
  target_free : ¬ Blocked fs dest
  target_gaps : GapsShow fs dest
  target_marker : ∀ r, r ∈ ShownBelow fs src → fs.upper.get? (whiteoutPath (dest ++ r)) ≠ some .dir
  target_kind : ∀ r, r ∈ ShownBelow fs src → ∀ m, fs.upper.get? (dest ++ r) = some m →
    (m = .dir ↔ view fs (src ++ r) = some .dir)
  target_empty : ∀ r, NoMarker r → view fs (src ++ r) = none → view fs (dest ++ r) = none

/-! ### A movable directory is moved -/

/-- What is shown below a removable source is an entry of the upper layer. -/
theorem Removable.isSome_of_view (h : Removable fs src) (hsrc : Unmarked src) (hne : src ≠ [])
    (hr : NoMarker r) (hnil : r ≠ []) (hview : view fs (src ++ r) ≠ none) :
    (fs.upper.get? (src ++ r)).isSome := by
  rw [Option.isSome_iff_ne_none]
  intro hnone
  exact hview (h.bare.view_eq_none (List.prefix_append src r) (by simpa using hnil)
    (hsrc.append hne hr) hnone)

namespace Movable

theorem copyable (h : Movable fs src dest) (ha : Apart src dest) : Copyable fs src dest where
  tree := by
    intro r n hview hr
    have hentry := h.isSome_of_view ha.source ha.ne_nil hr (by simp) hview
    obtain ⟨node, hnode⟩ := Option.isSome_iff_exists.mp hentry
    have hdir : fs.upper.get? (src ++ r) = some .dir :=
      Tree.get?_of_isPrefix ((List.prefix_append_right_inj src).mpr (List.prefix_append r [n]))
        (by simp) hnode
    have hplain : NoMarker r := hr.of_isPrefix (List.prefix_append r [n])
    exact view_of_upper (h.clear r ⟨hplain, by simp [hdir]⟩) hdir
  listed := h.listed
  free := h.target_free
  marker := h.target_marker
  kind := h.target_kind

end Movable

/-- The gaps above another path show still. -/
theorem GapsShow.onlyBelow (h : GapsShow fs src) (hgaps : GapsShow fs dest) (ha : Apart src dest)
    (honly : OnlyBelow fs dest fs₁) : GapsShow fs₁ src := by
  intro q hq hnone hhides
  have hunmarked := ha.source.dropLast.of_isPrefix hq
  have hpre : ¬ dest <+: q := ha.not_prefix_of_above (hq.trans (List.dropLast_prefix src))
  rw [honly.view_of_gapsShow hgaps ha.target hunmarked hpre]
  apply h q hq
  · rcases honly.off q hpre hunmarked.ne_whiteoutPath with hsame | ⟨hmissing, -⟩
    · exact hsame ▸ hnone
    · exact hmissing
  · rw [← hhides, honly.hides ha.target hunmarked hpre]

/-- After both halves. -/
theorem Movable.dirMoved (h : Movable fs src dest) (ha : Apart src dest)
    (hcopied : Copied fs src dest (ShownBelow fs src) fs₁) (honly : OnlyBelow fs dest fs₁)
    (honly' : OnlyBelow fs₁ src fs') (hgone : fs'.upper.get? src = none)
    (hmarker : existsInLower src fs₁ = true → fs'.upper.hides src = true) :
    DirMoved fs fs' src dest where
  arrived := by
    intro r hr
    rw [honly'.view_of_apart ha hr]
    cases hview : view fs (src ++ r) with
    | some node =>
      have hshown : r ∈ ShownBelow fs src := ⟨hr, by simp [hview]⟩
      exact view_of_upper (Tree.hides_eq_false.mpr (hcopied.marker r hshown))
        ((hcopied.entry r hshown).trans hview)
    | none =>
      have hout : r ∉ ShownBelow fs src := fun hshown => hshown.2 hview
      rw [← h.target_empty r hr hview]
      exact view_of_agree hcopied.lower (hcopied.get?_rest ha hr hout)
        (hcopied.get?_whiteoutPath ha hr hout) (hcopied.get?_opaquePath ha)
  gone := by
    intro r hr
    by_cases hnil : r = []
    · subst hnil
      rw [List.append_nil]
      cases hhides : fs'.upper.hides src with
      | true => exact view_of_hides hhides
      | false =>
        -- no whiteout was made, so there is nothing below
        have hlower : existsInLower src fs₁ = false := by
          rw [Bool.eq_false_iff]
          intro hlower
          rw [hmarker hlower] at hhides
          cases hhides
        rw [existsInLower_eq_false, ← honly'.lower] at hlower
        rw [view_of_passed hhides hgone, lowerView_of_forall_none hlower, ite_self]
    · have hbare : Bare fs' src := by
        apply ((honly.bare_iff ha).mpr h.bare).of_agree honly'.lower
        intro q hq
        exact honly'.get?_opaquePath ha.source (ha.not_prefix_of_parent hq)
      exact hbare.view_eq_none (List.prefix_append src r) (by simpa using hnil) (ha.unmarked hr)
        (PathMap.get?_eq_none_of_isPrefix (List.prefix_append src r) hgone)
  elsewhere := by
    intro q hq hsrc hdest
    rw [honly'.view_of_gapsShow (h.gaps.onlyBelow h.target_gaps ha honly) ha.source hq hsrc,
      honly.view_of_gapsShow h.target_gaps ha.target hq hdest]

theorem Movable.movesDir (h : Movable fs src dest) (ha : Apart src dest)
    (hview : view fs src = some .dir) : MovesDir fs src dest := by
  obtain ⟨B, -, hdepth⟩ := exists_depth fs src 0
  refine ⟨B + 1, fun frames hframes => ?_⟩
  have hnil : NoMarker [] := by simp [NoMarker]
  have hsource : view fs (src ++ []) = some .dir := by rwa [List.append_nil]
  have hall : Below (ShownBelow fs src) [] = ShownBelow fs src := by
    ext s
    simp [Below]
  -- the copy
  obtain ⟨fs₁, hcopy, hcopied⟩ := exists_run_copyDirRecursive (h.copyable ha) ha frames
    (Copied.start fs src dest) hnil hsource (fun q hq hne => absurd (List.prefix_nil.mp hq) hne)
    fun s hs => by
      have := hdepth s hs.1.1 (exists_layer_of_view hs.1.2)
      simp only [List.length_nil]
      omega
  rw [Set.empty_union, hall] at hcopied
  rw [List.append_nil, List.append_nil] at hcopy
  have honly := copyDirRecursive_onlyBelow hcopy
  -- the removal
  have hremovable : Removable fs₁ src := (honly.removable_iff ha).mpr h.toRemovable
  obtain ⟨k, rfl⟩ := Nat.exists_eq_add_one_of_ne_zero (show frames ≠ 0 by omega)
  have hview₁ : view fs₁ src = some .dir := (honly.view_self ha.symm).trans hview
  obtain ⟨fs', hremove, hgone, hmarker⟩ := exists_run_removeSource hremovable ha.source ha.ne_nil k
    hview₁ fun s hs => by
      have hentry : fs.upper.get? (src ++ s) ≠ none := by
        rw [← honly.get?_of_apart ha.symm (List.prefix_append src s)]
        exact hs.2
      have := hdepth s hs.1 ⟨fs.upper, by simp [layers], Option.isSome_iff_ne_none.mpr hentry⟩
      omega
  exact ⟨fs', run_bind_eq_ok.mpr ⟨(), fs₁, hcopy, hremove⟩,
    h.dirMoved ha hcopied honly (removeDirRecursive_onlyBelow hremove) hgone hmarker⟩

/-! ### A directory that was moved was movable -/

section

variable (ha : Apart src dest) (hview : view fs src = some .dir)
  (hcopy : (copyDirRecursive frames src dest : VfsM Stack Unit).run fs = .ok () fs₁)
  (hremove : (removeDirRecursive frames src : VfsM Stack Unit).run fs₁ = .ok () fs')
  (hmoved : DirMoved fs fs' src dest)

include ha hcopy hremove hmoved in
theorem bare_of_moved : Bare fs src := by
  rw [← (copyDirRecursive_onlyBelow hcopy).bare_iff ha]
  exact bare_of_removed ha.source hremove hmoved.gone

include ha hview hcopy hremove hmoved in
/-- The whiteout of the source needs directories above it, and those show. -/
theorem gapsShow_source_of_moved : GapsShow fs src := by
  have honly := copyDirRecursive_onlyBelow hcopy
  have honly' := removeDirRecursive_onlyBelow hremove
  obtain ⟨-, -, hmarker⟩ := removed_source hremove
  intro q hq hnone hhides
  have hunmarked := ha.source.dropLast.of_isPrefix hq
  have hdq : ¬ dest <+: q := ha.not_prefix_of_above (hq.trans (List.dropLast_prefix src))
  have hsq : ¬ src <+: q := ha.not_prefix_of_parent hq
  have hmissing : fs.upper.get? src = none :=
    PathMap.get?_eq_none_of_isPrefix (hq.trans (List.dropLast_prefix src)) hnone
  have hlower : existsInLower src fs₁ = true := by
    rw [existsInLower, honly.lower]
    exact existsInLower_of_view hmissing (by simp [hview])
  -- the whiteout is there in the end, and so are the directories above it
  have hsome : (fs'.upper.get? q).isSome := by
    apply PathMap.isSome_of_isPrefix hq
    simp [Tree.get?_dropLast_of_hides (hmarker hlower)]
  have hdir : fs'.upper.get? q = some .dir := by
    rcases honly'.off q hsq hunmarked.ne_whiteoutPath with hsame' | ⟨-, hdir, -⟩
    · rcases honly.off q hdq hunmarked.ne_whiteoutPath with hsame | ⟨-, hdir, -⟩
      · rw [hsame', hsame, hnone] at hsome
        cases hsome
      · exact hsame'.trans hdir
    · exact hdir
  rw [← hmoved.elsewhere q hunmarked hsq hdq]
  apply view_of_upper _ hdir
  rw [honly'.hides ha.source hunmarked hsq, honly.hides ha.target hunmarked hdq, hhides]

include ha hcopy hremove hmoved in
/-- The copy made the directories above the destination, and those show. -/
theorem gapsShow_target_of_moved : GapsShow fs dest := by
  have honly := copyDirRecursive_onlyBelow hcopy
  have honly' := removeDirRecursive_onlyBelow hremove
  intro q hq hnone hhides
  have hunmarked := ha.target.dropLast.of_isPrefix hq
  have hqd := hq.trans (List.dropLast_prefix dest)
  have hdq : ¬ dest <+: q := ha.symm.not_prefix_of_parent hq
  have hsq : ¬ src <+: q := ha.symm.not_prefix_of_above hqd
  have hsome : (fs₁.upper.get? q).isSome :=
    PathMap.isSome_of_isPrefix hqd (isSome_of_copied ha.target ha.symm.ne_nil hcopy)
  have hdir : fs₁.upper.get? q = some .dir := by
    rcases honly.off q hdq hunmarked.ne_whiteoutPath with hsame | ⟨-, hdir, -⟩
    · rw [hsame, hnone] at hsome
      cases hsome
    · exact hdir
  rw [← hmoved.elsewhere q hunmarked hsq hdq]
  apply view_of_upper
  · rw [honly'.hides ha.source hunmarked hsq, honly.hides ha.target hunmarked hdq, hhides]
  · rw [honly'.get?_of_isSome hsq hunmarked.ne_whiteoutPath hsome, hdir]

include ha hremove hmoved in
/-- What the copy has at the destination is what the source showed. -/
theorem view_of_copied_entry {node : Node} (hr : r ∈ ShownBelow fs src)
    (hentry : fs₁.upper.get? (dest ++ r) = some node) : view fs (src ++ r) = some node := by
  have honly' := removeDirRecursive_onlyBelow hremove
  rw [← honly'.get?_of_apart ha (List.prefix_append dest r)] at hentry
  have harrived := hmoved.arrived r hr.1
  cases hhides : fs'.upper.hides (dest ++ r) with
  | true =>
    rw [view_of_hides hhides] at harrived
    exact absurd harrived.symm hr.2
  | false => rw [← harrived, view_of_upper hhides hentry]

include ha hview hcopy hremove hmoved in
theorem movable_of_moved : Movable fs src dest := by
  have honly := copyDirRecursive_onlyBelow hcopy
  have honly' := removeDirRecursive_onlyBelow hremove
  have hbare := bare_of_moved ha hcopy hremove hmoved
  -- the removal started from the copy, which left alone what it depends on
  have hremovable : Removable fs₁ src := removable_of_removed ha.source ha.ne_nil hremove
    ((honly.view_self ha.symm).trans hview) ((honly.bare_iff ha).mpr hbare)
  refine ⟨(honly.removable_iff ha).mp hremovable,
    gapsShow_source_of_moved ha hview hcopy hremove hmoved, ?_,
    gapsShow_target_of_moved ha hcopy hremove hmoved, ?_, ?_, ?_⟩
  · rintro ⟨q, c, hq, hfile⟩
    have hdq : ¬ dest <+: q := ha.symm.not_prefix_of_parent hq
    apply not_blocked_of_upper (isSome_of_copied ha.target ha.symm.ne_nil hcopy)
    refine ⟨q, c, hq, ?_⟩
    rw [honly.get?_of_isSome hdq (ha.target.dropLast.of_isPrefix hq).ne_whiteoutPath
      (by simp [hfile]), hfile]
  · intro r hr hdir
    have hmarked : fs'.upper.hides (dest ++ r) = true := by
      rw [honly'.hides ha.source (ha.symm.unmarked hr.1) (ha.not_prefix r), Tree.hides,
        dir_of_copied hdir hcopy]
      rfl
    apply hr.2
    rw [← hmoved.arrived r hr.1, view_of_hides hmarked]
  · intro r hr m hentry
    constructor
    · rintro rfl
      exact view_of_copied_entry ha hremove hmoved hr (dir_of_copied hentry hcopy)
    · intro hdir
      cases m with
      | dir => rfl
      | file c =>
        obtain ⟨c', hc'⟩ := file_of_copied (ha.symm.unmarked hr.1) hentry hcopy
        rw [view_of_copied_entry ha hremove hmoved hr hc'] at hdir
        cases hdir
  · intro r hr hnone
    have hnil : r ≠ [] := by
      rintro rfl
      rw [List.append_nil, hview] at hnone
      cases hnone
    rw [← view_of_not_copied ha hr hnil hnone hcopy, ← honly'.view_of_apart ha hr,
      hmoved.arrived r hr, hnone]

end

/-- `move_dir` moves a directory that is shown exactly if it is movable. -/
theorem movesDir_iff (ha : Apart src dest) (hview : view fs src = some .dir) :
    MovesDir fs src dest ↔ Movable fs src dest := by
  constructor
  · rintro ⟨N, hN⟩
    obtain ⟨fs', hrun, hmoved⟩ := hN N le_rfl
    obtain ⟨⟨⟩, fs₁, hcopy, hremove⟩ := run_bind_eq_ok.mp hrun
    exact movable_of_moved ha hview hcopy hremove hmoved
  · exact fun h => h.movesDir ha hview

/-- A directory with a file in it, over the same directory without. -/
def draftStack : Stack :=
  ⟨Tree.ofEntries [(["a".toList], .dir), (["a".toList, "x".toList], .file [1])],
    [Tree.ofEntries [(["a".toList], .dir)]]⟩

theorem movesDir_iff_draft : MovesDir draftStack ["a".toList] ["b".toList] := by
  have ha : Apart ["a".toList] ["b".toList] := ⟨by decide, by decide, by decide, by decide⟩
  apply (movesDir_iff ha (by decide)).mpr
  have hupper : ∀ q n, draftStack.upper.get? q = some n → NoMarker q ∧ ¬ ["b".toList] <+: q := by
    intro q n hq
    have hall : ∀ e ∈ draftStack.upper.map.entries, NoMarker e.1 ∧ ¬ ["b".toList] <+: e.1 := by
      decide
    exact hall ⟨q, n⟩ (AList.mem_lookup_iff.mp hq)
  have hlower : ∀ t ∈ draftStack.lower, ∀ q n, t.get? q = some n →
      n = .dir ∧ q <+: ["a".toList] := by
    intro t ht q n hq
    rw [List.mem_singleton.mp ht] at hq
    have hall : ∀ e ∈ (Tree.ofEntries [(["a".toList], .dir)]).map.entries,
        e.2 = .dir ∧ e.1 <+: ["a".toList] := by decide
    exact hall ⟨q, n⟩ (AList.mem_lookup_iff.mp hq)
  -- there are no markers, and no gaps
  have hmarker : ∀ q m, IsMarker m → draftStack.upper.get? (q ++ [m]) = none := by
    intro q m hm
    by_contra hentry
    obtain ⟨n, hn⟩ := Option.ne_none_iff_exists'.mp hentry
    exact (hupper _ n hn).1 m (by simp) hm
  have hwhiteout : ∀ q, draftStack.upper.get? (whiteoutPath q) = none :=
    fun q => hmarker _ _ (isMarker_whiteoutPrefix_append _)
  have hfree : ∀ n, ¬ Blocked draftStack [n] := by
    rintro n ⟨q, c, hq, hfile⟩
    rw [List.prefix_nil.mp hq, Tree.get?_root] at hfile
    cases hfile
  have hgaps : ∀ n, GapsShow draftStack [n] := by
    intro n q hq hnone
    rw [List.prefix_nil.mp hq, Tree.get?_root] at hnone
    cases hnone
  have hnothing : ∀ r, draftStack.upper.get? (["b".toList] ++ r) = none := by
    intro r
    by_contra hentry
    obtain ⟨n, hn⟩ := Option.ne_none_iff_exists'.mp hentry
    exact (hupper _ n hn).2 (List.prefix_append _ r)
  have hbare : ∀ q, ¬ q <+: ["a".toList] → lowerView draftStack.lower q = none := by
    intro q hq
    apply lowerView_of_forall_none
    intro t ht
    by_contra hentry
    obtain ⟨n, hn⟩ := Option.ne_none_iff_exists'.mp hentry
    exact hq (hlower t ht q n hn).2
  constructor
  case toRemovable =>
    constructor
    case bare =>
      refine Or.inr fun r hr _ => hbare _ fun hpre => hr ?_
      simpa using hpre.length_le
    case clear => exact fun r _ => Tree.hides_eq_false.mpr (hwhiteout _)
    case marker => exact fun r m _ hm => (hmarker _ m hm).trans_ne (by simp)
    case listed =>
      rintro r - hdir (⟨c, hc⟩ | ⟨-, t, ht, c, hc⟩)
      · rw [view_of_upper (hides_of_view hdir) hc] at hdir
        cases hdir
      · cases (hlower t ht _ _ hc).1
    case free => exact hfree _
  case gaps => exact hgaps _
  case target_free => exact hfree _
  case target_gaps => exact hgaps _
  case target_marker => exact fun r _ => by simp [hwhiteout]
  case target_kind =>
    intro r _ m hentry
    rw [hnothing r] at hentry
    cases hentry
  case target_empty =>
    intro r _ _
    rw [view_of_passed (Tree.hides_eq_false.mpr (hwhiteout _)) (hnothing r), hbare, ite_self]
    rw [List.cons_append, List.cons_prefix_cons]
    exact fun h => absurd h.1 (by decide)

/-- After `etc` was moved away, `etc/hosts` is shown still: its whiteout went with the directory. -/
theorem not_movesDir_hosts :
    ¬ ∀ (fs : Stack) (src dest : Path), Apart src dest → view fs src = some .dir →
      view fs dest = none → view fs dest.dropLast = some .dir → MovesDir fs src dest := by
  intro h
  have ha : Apart ["etc".toList] ["new".toList] := ⟨by decide, by decide, by decide, by decide⟩
  obtain ⟨N, hN⟩ := h hostsStack _ _ ha (by decide) (by decide) (by decide)
  obtain ⟨fs', hrun, hmoved⟩ := hN N le_rfl
  obtain ⟨⟨⟩, fs₁, hcopy, hremove⟩ := run_bind_eq_ok.mp hrun
  rcases bare_of_moved ha hcopy hremove hmoved with hopq | hlower
  · revert hopq
    decide
  · have hnone := hlower ["hosts".toList] (by decide) (by decide)
    revert hnone
    decide

end Rspacefs
