import Rspacefs.Core.RemoveTree

/-!
# What the two halves of `move_dir` cannot change

A copy that returned made no file of a directory and no directory of a file, and left alone what
its source does not show. A removal that returned found nothing it could not remove: so an entry
that its own marker hides, a directory under the name of a marker and a directory that cannot be
listed are all there afterwards.

## Main results

* `isSome_of_copied`, `dir_of_copied`, `file_of_copied` — entries of the upper layer after a copy
* `view_of_not_copied` — a path that the source does not show
* `isSome_of_hidden`, `dir_of_marker`, `dir_of_fileInTheWay` — entries after a removal
* `bare_of_removed`, `removable_of_removed` — what can be told from a removal that left nothing
-/

namespace Rspacefs

open Lib LayerFS

variable {fs fs' fs₀ : Stack} {p q r x src dest : Path} {n m : Name} {c : Bytes} {frames : Nat}

/-! ### Copies -/

namespace Puts

/-- A directory stays, unless it is the marker that is dropped. -/
theorem dir (h : Puts p fs fs') (hx : fs.upper.get? x = some .dir) (hne : x ≠ whiteoutPath p) :
    fs'.upper.get? x = some .dir := by
  cases h with
  | mkdir q _ _ hnone _ hupd =>
    rw [hupd.get?_of_ne, hx]
    rintro rfl
    rw [hnone] at hx
    cases hx
  | unmark _ hupd => rw [hupd.get?_of_ne hne, hx]
  | write c _ hfree _ hupd =>
    rw [hupd.get?_of_ne, hx]
    rintro rfl
    exact hfree hx

/-- A file stays one. -/
theorem file (h : Puts p fs fs') (hq : Unmarked q) (hfile : ∃ c, fs.upper.get? q = some (.file c)) :
    ∃ c, fs'.upper.get? q = some (.file c) := by
  obtain ⟨c, hc⟩ := hfile
  cases h with
  | mkdir d _ _ hnone _ hupd =>
    refine ⟨c, ?_⟩
    rw [hupd.get?_of_ne, hc]
    rintro rfl
    rw [hnone] at hc
    cases hc
  | unmark _ hupd => exact ⟨c, by rw [hupd.get?_of_ne hq.ne_whiteoutPath, hc]⟩
  | write b _ _ _ hupd =>
    by_cases hqp : q = p
    · exact ⟨b, hqp ▸ hupd.get?_self⟩
    · exact ⟨c, by rw [hupd.get?_of_ne hqp, hc]⟩

theorem isSome (h : Puts p fs fs') (hq : Unmarked q) (hentry : (fs.upper.get? q).isSome) :
    (fs'.upper.get? q).isSome := by
  obtain ⟨node, hnode⟩ := Option.isSome_iff_exists.mp hentry
  cases node with
  | dir => simp [h.dir hnode hq.ne_whiteoutPath]
  | file c =>
    obtain ⟨b, hb⟩ := h.file hq ⟨c, hnode⟩
    simp [hb]

end Puts

/-- A call that does not return satisfies any condition on its value. -/
theorem triple_of_not_returns {α : Type} {x : VfsM Stack α} {Q : α → Stack → Prop}
    (h : ¬ Returns x fs) : Triple (· = fs) x Q fun _ => True := by
  rintro _ rfl
  cases hrun : x.run _ with
  | ok a fs' => exact absurd ⟨a, fs', hrun⟩ h
  | error e fs' => trivial

/-- A copy goes only to the places of what the source shows, from above; what the changes there
keep, it keeps. -/
theorem copyDirRecursive_spares {I : Stack → Prop} {Good : Path → Prop} (hnil : Good [])
    (hnext : ∀ r n fs node, Good r → I fs → view fs (src ++ (r ++ [n])) = some node →
      Good (r ++ [n]))
    (htarget : ∀ r, NoMarker r → Good r →
      Triple I (makeTarget (dest ++ r)) (fun _ => I) fun _ => True)
    (hfile : ∀ r s, NoMarker r → Good r →
      Triple I (LayerFS.copyFile s (dest ++ r)) (fun _ => I) fun _ => True) (frames : Nat) :
    Triple I (copyDirRecursive frames src dest) (fun _ => I) fun _ => True := by
  have hdown : ∀ r n fs node, (∀ q, q <+: r → Good q) → I fs →
      view fs (src ++ (r ++ [n])) = some node → ∀ q, q <+: r ++ [n] → Good q := by
    intro r n fs node hr hI hview q hq
    rcases List.prefix_concat_iff.mp hq with rfl | hq
    · exact hnext r n fs node (hr r (List.prefix_refl r)) hI hview
    · exact hr q hq
  -- a level knows of the paths from the source down to it
  have hlevels : CopyLevels (fun s d => ∃ r, NoMarker r ∧ s = src ++ r ∧ d = dest ++ r)
      (fun s _ fs => I fs ∧ ∀ q, src ++ q <+: s → Good q)
      (fun s _ fs => I fs ∧ ∀ q, src ++ q <+: s → Good q) fun _ => True := by
    constructor
    case down =>
      rintro _ _ n ⟨r, hr, rfl, rfl⟩ hn
      exact ⟨r ++ [n], hr.concat hn, by simp, by simp⟩
    case before => exact fun _ _ _ _ _ => trivial
    case during => exact fun _ _ _ _ _ => trivial
    case target =>
      rintro _ _ ⟨r, hr, rfl, rfl⟩
      refine Triple.of_forall fun fs ⟨hI, hgood⟩ => ?_
      exact ((htarget r hr (hgood r (List.prefix_refl _))).from_state hI).weaken (fun _ h => h)
        (fun _ _ h => ⟨h, hgood⟩) fun _ h => h
    case enter =>
      rintro _ _ n fs ⟨r, -, rfl, -⟩ - hview ⟨hI, hgood⟩
      simp only [List.append_assoc, List.prefix_append_right_inj] at hview hgood ⊢
      exact ⟨hI, hdown r n fs _ hgood hI hview⟩
    case leave =>
      exact fun s _ n _ _ _ h => ⟨h.1, fun q hq => h.2 q (hq.trans (List.prefix_append s [n]))⟩
    case file =>
      rintro _ _ n c ⟨r, hr, rfl, rfl⟩ hn
      refine Triple.of_forall fun fs ⟨⟨hI, hgood⟩, hview⟩ => ?_
      have hgood' := hgood
      simp only [List.append_assoc, List.prefix_append_right_inj] at hview hgood'
      have hn' := hdown r n fs _ hgood' hI hview _ (List.prefix_refl _)
      rw [List.append_assoc dest]
      exact ((hfile (r ++ [n]) _ (hr.concat hn) hn').from_state hI).weaken (fun _ h => h)
        (fun _ _ h => ⟨h, hgood⟩) fun _ h => h
  refine (hlevels.triple frames src dest ⟨[], by simp [NoMarker], by simp, by simp⟩).weaken ?_
    (fun _ _ h => h.1) fun _ h => h
  intro fs hI
  refine ⟨hI, fun q hq => ?_⟩
  obtain rfl : q = [] := by
    have hlen := hq.length_le
    rw [List.length_append] at hlen
    exact List.length_eq_zero_iff.mp (by omega)
  exact hnil

/-- The directory that is copied to is there afterwards. -/
theorem isSome_of_copied (hdest : Unmarked dest) (hne : dest ≠ [])
    (hrun : (copyDirRecursive frames src dest : VfsM Stack Unit).run fs = .ok () fs') :
    (fs'.upper.get? dest).isSome := by
  -- it is made first, and then stays
  have hlevels : CopyLevels (fun _ _ => True) (fun _ d fs => d = dest ∨ (fs.upper.get? dest).isSome)
      (fun _ _ fs => (fs.upper.get? dest).isSome) fun _ => True := by
    constructor
    case down => exact fun _ _ _ _ _ => trivial
    case before => exact fun _ _ _ _ _ => trivial
    case during => exact fun _ _ _ _ _ => trivial
    case target =>
      rintro _ d -
      refine Triple.of_forall fun fs hfs => ?_
      by_cases hd : d = dest
      · subst hd
        exact (makeTarget_spec fs hne).weaken (fun _ h => h) (fun _ _ h => by simp [h.entry])
          fun _ _ => trivial
      · have hkeeps := makeTarget_keeps fun _ _ h (hputs : Puts d _ _) => hputs.isSome hdest h
        exact (hkeeps.from_state (hfs.resolve_left hd)).forget
    case enter => exact fun _ _ _ _ _ _ _ h => Or.inr h
    case leave => exact fun _ _ _ _ _ _ h => h
    case file =>
      intro _ d n c _ _
      exact (copyFile_keeps (fun _ _ h hputs => hputs.isSome hdest h) _).weaken (fun _ h => h.1)
        (fun _ _ h => h) fun _ _ => trivial
  exact (hlevels.triple frames src dest trivial).ok (Or.inl rfl) hrun

/-- A directory of the upper layer is one afterwards: a copy does not return if it would have to
drop a marker that is a directory. -/
theorem dir_of_copied (hx : fs.upper.get? x = some .dir)
    (hrun : (copyDirRecursive frames src dest : VfsM Stack Unit).run fs = .ok () fs') :
    fs'.upper.get? x = some .dir := by
  refine (@copyDirRecursive_spares src dest (fun fs => fs.upper.get? x = some .dir) (fun _ => True)
    trivial (fun _ _ _ _ _ _ _ => trivial) (fun r _ _ => ?_) (fun r s _ _ => ?_) frames).ok hx hrun
  · refine Triple.of_forall fun fs hfs => ?_
    by_cases hd : x = whiteoutPath (dest ++ r)
    · -- the marker cannot be dropped
      apply triple_of_not_returns
      rw [returns_makeTarget_iff]
      exact not_not.mpr (Or.inr (hd ▸ hfs))
    · exact ((makeTarget_keeps fun _ _ h hputs => hputs.dir h hd).from_state hfs).forget
  · refine Triple.of_forall fun fs hfs => ?_
    by_cases hd : x = whiteoutPath (dest ++ r)
    · apply triple_of_not_returns
      rw [returns_copyFile_iff]
      exact fun h => h.2.2 (Or.inr (hd ▸ hfs))
    · exact ((copyFile_keeps (fun _ _ h hputs => hputs.dir h hd) s).from_state hfs).forget

theorem file_of_copied (hq : Unmarked q) (hfile : fs.upper.get? q = some (.file c))
    (hrun : (copyDirRecursive frames src dest : VfsM Stack Unit).run fs = .ok () fs') :
    ∃ c, fs'.upper.get? q = some (.file c) :=
  (copyDirRecursive_keeps (I := fun fs => ∃ c, fs.upper.get? q = some (.file c)) frames src dest
    fun _ _ _ _ h hputs => hputs.file hq h).ok ⟨c, hfile⟩ hrun

/-- Where the source shows nothing, the destination shows what it did. -/
theorem view_of_not_copied (ha : Apart src dest) (hr : NoMarker r) (hne : r ≠ [])
    (hnone : view fs (src ++ r) = none)
    (hrun : (copyDirRecursive frames src dest : VfsM Stack Unit).run fs = .ok () fs') :
    view fs' (dest ++ r) = view fs (dest ++ r) := by
  let I (fs₁ : Stack) : Prop :=
    view fs₁ (src ++ r) = none ∧ view fs₁ (dest ++ r) = view fs (dest ++ r)
  -- the copy does not go down as far as `r`
  let Good (w : Path) : Prop := ¬ r <+: w
  have hputs : ∀ w, NoMarker w → Good w → ∀ fs₁ fs₂, I fs₁ → Puts (dest ++ w) fs₁ fs₂ → I fs₂ := by
    rintro w hw hrw fs₁ fs₂ ⟨hsource, htarget⟩ hputs
    have hsrc := hputs.off (ha.symm.unmarked hw) (ha.unmarked hr)
      fun h => ha.not_prefix w ((List.prefix_append src r).trans h)
    have hdest := hputs.off (ha.symm.unmarked hw) (ha.symm.unmarked hr)
      fun h => hrw ((List.prefix_append_right_inj dest).mp h)
    exact ⟨hsrc.1.trans hsource, hdest.1.trans htarget⟩
  have hnil : Good [] := fun h => hne (List.prefix_nil.mp h)
  have hnext : ∀ w n fs₁ node, Good w → I fs₁ → view fs₁ (src ++ (w ++ [n])) = some node →
      Good (w ++ [n]) := by
    intro w n fs₁ node hw hI hview hpre
    rcases List.prefix_concat_iff.mp hpre with he | hpre
    · rw [← he, hI.1] at hview
      cases hview
    · exact hw hpre
  have hspares := copyDirRecursive_spares hnil hnext
    (fun w hw hgood => (makeTarget_keeps (hputs w hw hgood)).forget)
    (fun w s hw hgood => (copyFile_keeps (hputs w hw hgood) s).forget) frames
  exact (hspares.ok ⟨hnone, rfl⟩ hrun).2

/-! ### Removals -/

namespace Cuts

/-- A directory stays, unless it is removed or a whiteout takes its place. -/
theorem dir (h : Cuts p fs fs') (hx : fs.upper.get? x = some .dir) (hne : x ≠ p)
    (hmark : x ≠ whiteoutPath p) : fs'.upper.get? x = some .dir := by
  cases h with
  | mkdir q _ _ hnone _ hupd =>
    rw [hupd.get?_of_ne, hx]
    rintro rfl
    rw [hnone] at hx
    cases hx
  | drop _ _ _ hupd => rw [hupd.get?_of_ne hne, hx]
  | mark _ _ _ hupd => rw [hupd.get?_of_ne hmark, hx]

theorem isSome (h : Cuts p fs fs') (hq : Unmarked q) (hne : q ≠ p)
    (hentry : (fs.upper.get? q).isSome) : (fs'.upper.get? q).isSome := by
  cases h with
  | mkdir d _ _ hnone _ hupd =>
    rw [hupd.get?_of_ne]
    · exact hentry
    rintro rfl
    rw [hnone] at hentry
    cases hentry
  | drop _ _ _ hupd => rwa [hupd.get?_of_ne hne]
  | mark _ _ _ hupd => rwa [hupd.get?_of_ne hq.ne_whiteoutPath]

end Cuts

/-- A removal goes only to directories that it could list and to files that are shown; what the
changes there keep, it keeps. -/
theorem removeDirRecursive_spares {I : Stack → Prop} {M : Path → Stack → Prop} {Good : Path → Prop}
    (hlist : ∀ p fs l, I fs → view fs p = some .dir → LayerFS.readDir p fs = .ok l → Good p)
    (hshown : ∀ p fs c, I fs → view fs p = some (.file c) → Good p)
    (hfile : ∀ p, Unmarked p → Good p →
      Triple I (LayerFS.removeFile p) (fun _ => I) fun _ => True)
    (hmarkers : ∀ p, Good p → Triple I (onUpper (removeMarkers p)) (fun _ => M p) fun _ => True)
    (hdir : ∀ p, Unmarked p → Good p →
      Triple (M p) (LayerFS.removeDir p) (fun _ => I) fun _ => True)
    (hsrc : Unmarked src) (hne : src ≠ []) (frames : Nat) :
    Triple (fun fs => I fs ∧ view fs src = some .dir) (removeDirRecursive frames src) (fun _ => I)
      fun _ => True := by
  -- of the paths from the source down to `p`, each was listed
  let Listed (p : Path) : Prop := ∀ q, src <+: q → q <+: p → Good q
  have hlevels : RemoveLevels (fun p => Unmarked p ∧ p ≠ [] ∧ src <+: p)
      (fun p fs => I fs ∧ view fs p = some .dir ∧ Listed p.dropLast)
      (fun p fs => I fs ∧ Listed p) (fun p fs => M p fs ∧ Listed p) fun _ => True := by
    constructor
    case down =>
      rintro p n ⟨hp, hpne, hsp⟩ hn
      exact ⟨hp.concat hpne hn, by simp, hsp.trans (List.prefix_append p [n])⟩
    case before => exact fun _ _ _ _ => trivial
    case list =>
      rintro p fs l ⟨-, hpne, -⟩ ⟨hI, hview, hup⟩ hl
      refine ⟨hI, fun q hsq hqp => ?_⟩
      by_cases he : q = p
      · exact he ▸ hlist p fs l hI hview hl
      · exact hup q hsq (prefix_dropLast_of_ne hqp he)
    case enter =>
      rintro p n fs - - hview ⟨hI, hp⟩
      exact ⟨hI, hview, by rwa [List.dropLast_concat]⟩
    case file =>
      rintro p n c ⟨hp, hpne, -⟩ hn
      refine Triple.of_forall fun fs ⟨⟨hI, hlisted⟩, hview⟩ => ?_
      exact ((hfile _ (hp.concat hpne hn) (hshown _ fs c hI hview)).from_state hI).weaken
        (fun _ h => h) (fun _ _ h => ⟨h, hlisted⟩) fun _ h => h
    case markers =>
      rintro p ⟨-, -, hsp⟩
      refine Triple.of_forall fun fs ⟨hI, hlisted⟩ => ?_
      exact ((hmarkers p (hlisted p hsp (List.prefix_refl p))).from_state hI).weaken
        (fun _ h => h) (fun _ _ h => ⟨h, hlisted⟩) fun _ h => h
    case dir =>
      rintro p ⟨hp, -, hsp⟩
      refine Triple.of_forall fun fs ⟨hM, hlisted⟩ => ?_
      refine ((hdir p hp (hlisted p hsp (List.prefix_refl p))).from_state hM).weaken
        (fun _ h => h) (fun _ _ h => ⟨h, fun q hsq hqp => ?_⟩) fun _ h => h
      exact hlisted q hsq (hqp.trans (List.dropLast_prefix p))
  refine (hlevels.triple frames src ⟨hsrc, hne, List.prefix_refl src⟩).weaken ?_
    (fun _ _ h => h.1) fun _ h => h
  rintro fs ⟨hI, hview⟩
  exact ⟨hI, hview, fun q hsq hqp => absurd (hsq.trans hqp) (not_prefix_dropLast hne)⟩

section

variable (hsrc : Unmarked src) (hne : src ≠ []) (hview : view fs src = some .dir)
  (hrun : (removeDirRecursive frames src : VfsM Stack Unit).run fs = .ok () fs')
include hsrc hne hview hrun

/-- An entry that is hidden is not removed before its marker is, and then the directory they are
in is not empty. -/
theorem isSome_of_hidden (hx : Unmarked x) (hentry : (fs.upper.get? x).isSome)
    (hhides : fs.upper.hides x = true) : (fs'.upper.get? x).isSome := by
  let I (fs : Stack) : Prop := (fs.upper.get? x).isSome ∧ fs.upper.hides x = true
  -- between the sweep of `p` and its removal the marker may be gone
  let M (p : Path) (fs : Stack) : Prop :=
    (fs.upper.get? x).isSome ∧ (p ≠ x.dropLast → fs.upper.hides x = true)
  have hshown : ∀ p fs node, I fs → view fs p = some node → x ≠ p := by
    rintro _ fs node hI hview rfl
    rw [view_of_hides hI.2] at hview
    cases hview
  have hcuts : ∀ p, Unmarked p → x ≠ p → ∀ fs fs', I fs → Cuts p fs fs' → I fs' := by
    intro p hp hxp fs fs' hI hcuts
    refine ⟨hcuts.isSome hx hxp hI.1, ?_⟩
    rw [hcuts.hides_of_ne hp hx hxp]
    exact hI.2
  have hmarkers : ∀ p, x ≠ p →
      Triple I (onUpper (removeMarkers p)) (fun _ => M p) fun _ => True := by
    intro p _
    refine (removeMarkers_keeps (I := M p) ?_).weaken (fun _ h => ⟨h.1, fun _ => h.2⟩)
      (fun _ _ h => h) fun _ _ => trivial
    rintro m c fs fs' ⟨hentry, hhides⟩ hm - hupd
    refine ⟨?_, fun hpx => ?_⟩
    · rw [hupd.get?_of_ne]
      · exact hentry
      rintro rfl
      exact hx.1 m (by simp) hm
    · rw [Tree.hides, hupd.get?_of_ne]
      · exact hhides hpx
      · intro he
        apply hpx
        rw [← whiteoutPath_dropLast x, he, List.dropLast_concat]
  have hdir : ∀ p, Unmarked p → x ≠ p →
      Triple (M p) (LayerFS.removeDir p) (fun _ => I) fun _ => True := by
    intro p hp hxp
    refine Triple.of_forall fun fs hM => ?_
    obtain ⟨hentry, hhides⟩ := hM
    by_cases hpx : p = x.dropLast
    · -- the hidden entry is in the way
      apply triple_of_not_returns
      rw [returns_removeDir_iff]
      have hxne : x ≠ [] := by
        rintro rfl
        exact hxp hpx.symm
      obtain ⟨d, n, rfl⟩ := (List.eq_nil_or_concat' x).resolve_left hxne
      rw [List.dropLast_concat] at hpx
      subst hpx
      rintro (⟨hnone, -⟩ | ⟨-, -, hempty⟩)
      · rw [PathMap.get?_eq_none_of_isPrefix (List.prefix_append p [n]) hnone] at hentry
        cases hentry
      · rw [PathMap.children_eq_nil.mp hempty n] at hentry
        cases hentry
    · exact ((removeDir_keeps (hcuts p hp hxp)).from_state ⟨hentry, hhides hpx⟩).forget
  have hspares := removeDirRecursive_spares (fun p fs l hI hview _ => hshown p fs _ hI hview)
    (fun p fs c hI hview => hshown p fs _ hI hview)
    (fun p hp hxp => (removeFile_keeps (hcuts p hp hxp)).forget) hmarkers hdir hsrc hne frames
  exact (hspares.ok ⟨⟨hentry, hhides⟩, hview⟩ hrun).1

/-- Only files are dropped for markers, and what is shown has no marker. -/
theorem dir_of_marker (hm : IsMarker m) (hx : fs.upper.get? (p ++ [m]) = some .dir) :
    fs'.upper.get? (p ++ [m]) = some .dir := by
  let I (fs : Stack) : Prop := fs.upper.get? (p ++ [m]) = some .dir
  -- the invariant: the directory is there, so what it hides is not shown
  have hshown : ∀ q fs node, I fs → view fs q = some node → p ++ [m] ≠ whiteoutPath q := by
    intro q fs node hI hview he
    rw [view_of_hides] at hview
    · cases hview
    rw [Tree.hides, ← he, hI]
    rfl
  have hcuts : ∀ q, Unmarked q → p ++ [m] ≠ whiteoutPath q → ∀ fs fs', I fs → Cuts q fs fs' →
      I fs' := by
    intro q hq hmark fs fs' hI hcuts
    refine hcuts.dir hI ?_ hmark
    rintro rfl
    exact hq.1 m (by simp) hm
  have hmarkers : ∀ q, Triple I (onUpper (removeMarkers q)) (fun _ => I) fun _ => True := by
    intro q
    apply Triple.forget
    apply removeMarkers_keeps
    intro m' c fs fs' hI _ hfile hupd
    change fs'.upper.get? (p ++ [m]) = some .dir
    rw [hupd.get?_of_ne, hI]
    intro he
    rw [← he, hI] at hfile
    cases hfile
  have hspares := removeDirRecursive_spares (fun q fs l hI hview _ => hshown q fs _ hI hview)
    (fun q fs c hI hview => hshown q fs _ hI hview)
    (fun q hq hmark => (removeFile_keeps (hcuts q hq hmark)).forget) (fun q _ => hmarkers q)
    (fun q hq hmark => (removeDir_keeps (hcuts q hq hmark)).forget) hsrc hne frames
  exact hspares.ok ⟨hx, hview⟩ hrun

/-- A directory that cannot be listed is not removed. -/
theorem dir_of_fileInTheWay (hx : Unmarked x) (hdir : fs.upper.get? x = some .dir)
    (hfile : FileInTheWay fs x) : fs'.upper.get? x = some .dir := by
  let I (fs : Stack) : Prop := fs.upper.get? x = some .dir ∧ FileInTheWay fs x
  -- the invariant: the directory stays and cannot be listed, so its turn never comes
  have hlist : ∀ p fs l, I fs → LayerFS.readDir p fs = .ok l → x ≠ p := by
    rintro _ fs l hI hl rfl
    rw [hI.2.readDir] at hl
    cases hl
  have hshown : ∀ p fs c, I fs → view fs p = some (.file c) → x ≠ p := by
    rintro _ fs c hI hview rfl
    rw [view_of_upper (hides_of_view hview) hI.1] at hview
    cases hview
  have hcuts : ∀ p, Unmarked p → x ≠ p → ∀ fs fs', I fs → Cuts p fs fs' → I fs' := by
    rintro p hp hxp fs fs' ⟨hdir, hfile⟩ hcuts
    refine ⟨hcuts.dir hdir hxp hx.ne_whiteoutPath, ?_⟩
    rcases hfile with ⟨c, hc⟩ | hlower
    · rw [hdir] at hc
      cases hc
    · right
      rwa [hcuts.get?_opaquePath hp.1, hcuts.lower]
  have hmarkers : ∀ p, Triple I (onUpper (removeMarkers p)) (fun _ => I) fun _ => True := by
    intro p
    apply Triple.forget
    apply removeMarkers_keeps
    rintro m c fs fs' ⟨hdir, hfile⟩ hm - hupd
    refine ⟨?_, ?_⟩
    · rw [hupd.get?_of_ne, hdir]
      rintro rfl
      exact hx.1 m (by simp) hm
    · rcases hfile with ⟨c, hc⟩ | ⟨hopq, hlower⟩
      · rw [hdir] at hc
        cases hc
      · refine Or.inr ⟨?_, hupd.lower ▸ hlower⟩
        rw [hupd.upper]
        by_cases he : opaquePath x = p ++ [m]
        · rw [he, Function.update_self]
        · rw [Function.update_of_ne he, hopq]
  have hspares := removeDirRecursive_spares (fun p fs l hI _ hl => hlist p fs l hI hl) hshown
    (fun p hp hxp => (removeFile_keeps (hcuts p hp hxp)).forget) (fun p _ => hmarkers p)
    (fun p hp hxp => (removeDir_keeps (hcuts p hp hxp)).forget) hsrc hne frames
  exact (hspares.ok ⟨⟨hdir, hfile⟩, hview⟩ hrun).1

end

/-- The end of a removal that returned. -/
theorem removed_source
    (hrun : (removeDirRecursive frames src : VfsM Stack Unit).run fs = .ok () fs') :
    ¬ FileInTheWay fs src ∧ fs'.upper.get? src = none ∧
      (existsInLower src fs = true → fs'.upper.hides src = true) := by
  have honly := removeDirRecursive_onlyBelow hrun
  cases frames with
  | zero => cases hrun
  | succ frames =>
    rw [removeDirRecursive_succ] at hrun
    obtain ⟨l, fs₁, hlist, hrun⟩ := run_bind_eq_ok.mp hrun
    obtain ⟨⟨⟩, fs₂, -, hrun⟩ := run_bind_eq_ok.mp hrun
    obtain ⟨⟨⟩, fs₃, -, hrun⟩ := run_bind_eq_ok.mp hrun
    have hremoved := (removeDir_spec fs₃ src).ok rfl hrun
    refine ⟨fun hfile => ?_, hremoved.entry, fun hlower => hremoved.marker ?_⟩
    · rw [run_ask_eq_ok, hfile.readDir] at hlist
      cases hlist.1
    · rwa [existsInLower, ← hremoved.lower, honly.lower]

section

variable (hsrc : Unmarked src) (hne : src ≠ [])
  (hrun : (removeDirRecursive frames src : VfsM Stack Unit).run fs = .ok () fs')
include hsrc hrun

/-- If a removal leaves nothing to be shown, the lower layers showed nothing below the source. -/
theorem bare_of_removed (hgone : ∀ r, NoMarker r → view fs' (src ++ r) = none) : Bare fs src := by
  have honly := removeDirRecursive_onlyBelow hrun
  have hnone : ∀ q, src <+: q → fs'.upper.get? q = none :=
    fun q hq => PathMap.get?_eq_none_of_isPrefix hq (removed_source hrun).2.1
  rw [Bare, or_iff_not_imp_left]
  intro hopq r hr hunmarked
  have hplain : NoMarker r := fun n hn => hunmarked.1 n (List.mem_append_right src hn)
  have hhides : fs'.upper.hides (src ++ r) = false := by
    rw [Tree.hides_eq_false]
    rcases whiteoutPath_append src r with hbelow | he
    · exact hnone _ hbelow
    · exact absurd (hunmarked.whiteoutPath_inj hsrc he) (by simpa using hr)
  have hshown := hgone r hplain
  rw [view_of_passed hhides (hnone _ (List.prefix_append src r)), if_neg, honly.lower] at hshown
  · exact hshown
  -- an opaque marker that is left is above the source, and was there before
  rw [Tree.opaqueAbove_eq_true]
  rintro ⟨q, hq, hsome⟩
  by_cases hsq : src <+: q
  · have hbelow : src <+: opaquePath q := hsq.trans (List.prefix_append q _)
    rw [hnone _ hbelow] at hsome
    cases hsome
  · have hqs : q <+: src := (List.prefix_or_prefix_of_prefix
      (hq.trans (List.dropLast_prefix _)) (List.prefix_append src r)).resolve_right hsq
    have hne : q ≠ src := by
      rintro rfl
      exact hsq (List.prefix_refl q)
    apply hopq
    rw [Tree.opaqueAbove_eq_true]
    refine ⟨q, prefix_dropLast_of_ne hqs hne, ?_⟩
    rwa [honly.get?_opaquePath hsrc hsq] at hsome

include hne

/-- The whiteout of the source is below directories: a file above it would be there still. -/
theorem not_blocked_of_removed (hview : view fs src = some .dir) : ¬ Blocked fs src := by
  have honly := removeDirRecursive_onlyBelow hrun
  rintro ⟨q, c, hq, hfile⟩
  cases hentry : fs.upper.get? src with
  | some node => exact not_blocked_of_upper (by simp [hentry]) ⟨q, c, hq, hfile⟩
  | none =>
    have hlower : existsInLower src fs = true := existsInLower_of_view hentry (by simp [hview])
    have hsq : ¬ src <+: q := fun hsq => not_prefix_dropLast hne (hsq.trans hq)
    have hfile' : fs'.upper.get? q = some (.file c) := by
      rw [honly.get?_of_isSome hsq (hsrc.dropLast.of_isPrefix hq).ne_whiteoutPath
        (by simp [hfile]), hfile]
    exact not_blocked_of_parent
      (Tree.get?_dropLast_of_hides ((removed_source hrun).2.2 hlower)) ⟨q, c, hq, hfile'⟩

/-- What a removal leaves alone would be left over: the source was removable if nothing was. -/
theorem removable_of_removed (hview : view fs src = some .dir) (hbare : Bare fs src) :
    Removable fs src := by
  obtain ⟨hlisted, hgone, -⟩ := removed_source hrun
  -- everything below the source is gone, so what is shown to stay was not there
  have hnone : ∀ q, src <+: q → fs'.upper.get? q = none :=
    fun q hq => PathMap.get?_eq_none_of_isPrefix hq hgone
  refine ⟨hbare, ?_, ?_, ?_, not_blocked_of_removed hsrc hne hrun hview⟩
  · rintro r ⟨hr, hentry⟩
    by_cases hnil : r = []
    · rw [hnil, List.append_nil]
      exact hides_of_view hview
    · by_contra hhides
      rw [Bool.not_eq_false] at hhides
      have hstill := isSome_of_hidden hsrc hne hview hrun (hsrc.append hne hr)
        (Option.isSome_iff_ne_none.mpr hentry) hhides
      rw [hnone _ (List.prefix_append src r)] at hstill
      cases hstill
  · intro r m hr hm hdir
    have hstill := dir_of_marker hsrc hne hview hrun hm hdir
    rw [hnone _ (by rw [List.append_assoc]; exact List.prefix_append src _)] at hstill
    cases hstill
  · intro r hr hdir hfile
    by_cases hnil : r = []
    · rw [hnil, List.append_nil] at hfile
      exact hlisted hfile
    · have hunmarked := hsrc.append hne hr
      cases hentry : fs.upper.get? (src ++ r) with
      | none =>
        rw [hbare.view_eq_none (List.prefix_append src r) (by simpa using hnil) hunmarked hentry]
          at hdir
        cases hdir
      | some node =>
        rw [view_of_upper (hides_of_view hdir) hentry, ← hentry] at hdir
        have hstill := dir_of_fileInTheWay hsrc hne hview hrun hunmarked hdir hfile
        rw [hnone _ (List.prefix_append src r)] at hstill
        cases hstill

end

end Rspacefs
