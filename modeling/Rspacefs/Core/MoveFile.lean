import Rspacefs.Core.Succeed

/-!
# Moving a file

`move_file` copies the file to the destination and removes the source. On the way the upper layer
gains the directories above the destination and loses its whiteout marker; if a lower layer has
the source, it also gains the source's marker and the directories above that. Between ordinary
names only the directories can show; where a path has reserved components, what the upper layer
gains or loses may be the marker of another name.

## Main definitions

* `MoveReady` — `move_file` can do both its halves
* `HeldAfter` — what the upper layer has after a move
* `Unnoticed` — a move does not show at a path
* `Moved` — the file is at the destination and not at the source, and nothing else shows

## Main results

* `isSome_moveFile` — `HeldAfter` is what the upper layer has
* `moves_iff` — when `move_file` returns and moves the file
-/

namespace Rspacefs

open Lib LayerFS

variable {fs fs' fs₁ : Stack} {p q x src dst : Path} {c : Bytes} {n : Node}

/-- The upper layer can take the copy at `dst` and drop, or whiteout, `src` afterwards: neither
path is above the other. -/
structure MoveReady (fs : Stack) (src dst : Path) : Prop where
  dir : fs.upper.get? dst ≠ some .dir
  shut : ¬ Shut fs dst
  blocked : ¬ Blocked fs src
  not_below : ¬ dst <+: src
  not_above : ¬ src <+: dst

/-- What the upper layer has after a move: what it had or what is on the way to `dst`, except
the source and the marker of `dst`; and the marker of a source that a lower layer has, with what
is on the way to it. -/
def HeldAfter (fs : Stack) (src dst x : Path) : Prop :=
  x ≠ src ∧ ((x ≠ whiteoutPath dst ∧ ((fs.upper.get? x).isSome ∨ x <+: dst)) ∨
    existsInLower src fs = true ∧ x <+: whiteoutPath src)

/-- A move does not show at `q`. -/
structure Unnoticed (fs : Stack) (src dst q : Path) : Prop where
  /-- What is whited out afterwards was not shown. -/
  covered : HeldAfter fs src dst (whiteoutPath q) → view fs q = none
  /-- A directory that the upper layer gains was shown as one. -/
  gap : ¬ HeldAfter fs src dst (whiteoutPath q) → fs.upper.get? q = none →
    HeldAfter fs src dst q → view fs q = some .dir
  /-- What the upper layer has was not whited out. -/
  entry : ¬ HeldAfter fs src dst (whiteoutPath q) → fs.upper.get? q ≠ none →
    fs.upper.hides q = false
  /-- What a lower layer has is behind an opaque marker afterwards if it did not show. -/
  lower : ¬ HeldAfter fs src dst (whiteoutPath q) → fs.upper.get? q = none →
    ¬ HeldAfter fs src dst q → lowerView fs.lower q ≠ none →
    ((∃ d, d <+: q.dropLast ∧ HeldAfter fs src dst (opaquePath d)) ↔
      fs.upper.hides q = true ∨ fs.upper.opaqueAbove q = true)

/-- The file is at `dst` with its bytes and not at `src`, and every other path shows what it
did. -/
structure Moved (fs fs' : Stack) (src dst : Path) (c : Bytes) : Prop where
  arrived : view fs' dst = some (.file c)
  gone : view fs' src = none
  elsewhere : ∀ q, PlainPath q → q ≠ src → q ≠ dst → view fs' q = view fs q

/-! ### What the upper layer has -/

theorem prefix_whiteoutPath_iff : x <+: whiteoutPath p ↔ x = whiteoutPath p ∨ x <+: p.dropLast :=
  List.prefix_concat_iff

theorem prefix_iff (hp : p ≠ []) : x <+: p ↔ x = p ∨ x <+: p.dropLast := by
  obtain ⟨d, m, rfl⟩ := (List.eq_nil_or_concat' p).resolve_left hp
  rw [List.dropLast_concat]
  exact List.prefix_concat_iff

/-- What a copy to `p` leaves: the marker is gone, and what leads to `p` is there. -/
theorem Placed.isSome_iff (h : Placed fs fs' p n) :
    (fs'.upper.get? x).isSome ↔ x ≠ whiteoutPath p ∧ ((fs.upper.get? x).isSome ∨ x <+: p) := by
  by_cases hmarker : x = whiteoutPath p
  · simp [hmarker, h.marker]
  by_cases hpre : x <+: p
  · have hsome : (fs'.upper.get? x).isSome := PathMap.isSome_of_isPrefix hpre (by simp [h.entry])
    simp [hsome, hmarker, hpre]
  · have hxp : x ≠ p := by
      rintro rfl
      exact hpre (List.prefix_refl x)
    rcases h.touched x hxp hmarker with hsame | ⟨-, -, -, hdir⟩
    · simp [hsame, hmarker, hpre]
    · exact absurd (hdir.trans (List.dropLast_prefix p)) hpre

/-- A removal for which no whiteout is due changes nothing else. -/
theorem get?_removeFile_of_bare (hlower : existsInLower p fs = false)
    (hrun : (LayerFS.removeFile p : VfsM Stack Unit).run fs = .ok () fs') (hx : x ≠ p) :
    fs'.upper.get? x = fs.upper.get? x := by
  have hbare : Triple (fun g : Stack => g.upper.get? x = fs.upper.get? x ∧
      existsInLower p g = false) (LayerFS.removeFile p)
      (fun _ g => g.upper.get? x = fs.upper.get? x)
      (fun g => g.upper.get? x = fs.upper.get? x) :=
    removeWith_bare (fun _ _ h hupd => (hupd.get?_of_ne hx).trans h) fun u =>
      (Tree.removeFile_spec u p).weaken (fun _ h => h) (fun _ _ h => h.2) fun _ h => h
  exact hbare.ok ⟨rfl, hlower⟩ hrun

/-- A removal takes away nothing else. -/
theorem get?_removeFile_of_some (hentry : fs.upper.get? x = some n)
    (hrun : (LayerFS.removeFile p : VfsM Stack Unit).run fs = .ok () fs') (hx : x ≠ p) :
    fs'.upper.get? x = some n := by
  refine (removeFile_keeps (I := fun g => g.upper.get? x = some n) ?_).ok hentry hrun
  intro g g' hg hcuts
  cases hcuts with
  | mkdir q _ _ hnone _ hupd =>
    rw [hupd.get?_of_ne, hg]
    rintro rfl
    rw [hg] at hnone
    cases hnone
  | drop _ _ _ hupd => rw [hupd.get?_of_ne hx, hg]
  | mark _ _ hfree hupd =>
    rw [hupd.get?_of_ne, hg]
    rintro rfl
    rw [Tree.hides_eq_false, hg] at hfree
    cases hfree

theorem isSome_removeFile (hrun : (LayerFS.removeFile p : VfsM Stack Unit).run fs = .ok () fs') :
    (fs'.upper.get? x).isSome ↔ x ≠ p ∧ ((fs.upper.get? x).isSome ∨
      existsInLower p fs = true ∧ x <+: whiteoutPath p) := by
  have hremoved := (removeFile_spec fs p).ok rfl hrun
  by_cases hxp : x = p
  · simp [hxp, hremoved.entry]
  cases hlower : existsInLower p fs with
  | false => simp [get?_removeFile_of_bare hlower hrun hxp, hxp]
  | true =>
    by_cases hpre : x <+: whiteoutPath p
    · have hsome := PathMap.isSome_of_isPrefix hpre (hremoved.marker hlower)
      simp [hsome, hxp, hpre]
    · rw [prefix_whiteoutPath_iff, not_or] at hpre
      rcases hremoved.touched x hxp hpre.1 with hsame | ⟨-, -, -, hdir⟩
      · simp [hsame, hxp, prefix_whiteoutPath_iff, hpre]
      · exact absurd hdir hpre.2

/-- `HeldAfter` is what the upper layer has after a move. -/
theorem isSome_moveFile (hplaced : Placed fs fs₁ dst n)
    (hremove : (LayerFS.removeFile src : VfsM Stack Unit).run fs₁ = .ok () fs') :
    (fs'.upper.get? x).isSome ↔ HeldAfter fs src dst x := by
  have hlower : existsInLower src fs₁ = existsInLower src fs := by
    rw [existsInLower, hplaced.lower]
    rfl
  rw [isSome_removeFile hremove, hplaced.isSome_iff, hlower]
  rfl

/-! ### When a move returns -/

/-- What a copy to `dst` leaves of the source. -/
theorem Placed.get?_source (h : Placed fs fs₁ dst n) (hne : src ≠ dst)
    (hmarker : src ≠ whiteoutPath dst) (hpre : ¬ src <+: dst) :
    fs₁.upper.get? src = fs.upper.get? src := by
  rcases h.touched src hne hmarker with hsame | ⟨-, -, -, habove⟩
  · exact hsame
  · exact absurd (habove.trans (List.dropLast_prefix dst)) hpre

/-- What the upper layer shows of the file is the file. -/
theorem get?_of_view_file (hview : view fs src = some (.file c)) :
    fs.upper.get? src = none ∨ fs.upper.get? src = some (.file c) := by
  cases hentry : fs.upper.get? src with
  | none => exact Or.inl rfl
  | some m =>
    rw [view_of_upper (hides_of_view hview) hentry] at hview
    exact Or.inr hview

/-- After the copy the source can be removed. -/
theorem MoveReady.removes (h : MoveReady fs src dst) (hne : src ≠ dst)
    (hview : view fs src = some (.file c)) (hplaced : Placed fs fs₁ dst n) :
    Returns (LayerFS.removeFile src : VfsM Stack Unit) fs₁ := by
  rw [returns_removeFile_iff]
  by_cases hmarker : src = whiteoutPath dst
  · -- the source was the marker of the destination, and is gone already
    refine Or.inl ⟨hmarker ▸ hplaced.marker, fun _ => not_blocked_of_parent ?_⟩
    rw [hmarker, whiteoutPath_dropLast]
    exact Tree.get?_parent hplaced.ne_nil hplaced.entry
  rw [hplaced.get?_source hne hmarker h.not_above]
  rcases get?_of_view_file hview with hnone | hfile
  · refine Or.inl ⟨hnone, fun _ => ?_⟩
    rintro ⟨q, b, hq, hfile⟩
    by_cases hqdst : q = dst
    · exact h.not_below (hqdst ▸ hq.trans (List.dropLast_prefix src))
    by_cases hqmarker : q = whiteoutPath dst
    · rw [hqmarker, hplaced.marker] at hfile
      cases hfile
    rcases hplaced.touched q hqdst hqmarker with hsame | ⟨-, hdir, -⟩
    · exact h.blocked ⟨q, b, hq, hsame ▸ hfile⟩
    · rw [hdir] at hfile
      cases hfile
  · exact Or.inr ⟨c, hfile⟩

/-- A move that returned, and did not bring back the marker of `dst`, was ready. -/
theorem MoveReady.of_removes (hdir : fs.upper.get? dst ≠ some .dir) (hshut : ¬ Shut fs dst)
    (hne : src ≠ dst) (hview : view fs src = some (.file c)) (hplaced : Placed fs fs₁ dst (.file c))
    (hremove : (LayerFS.removeFile src : VfsM Stack Unit).run fs₁ = .ok () fs')
    (hmarker : ¬ HeldAfter fs src dst (whiteoutPath dst)) : MoveReady fs src dst := by
  have hreturns := returns_removeFile_iff.mp ⟨(), fs', hremove⟩
  -- whatever the upper layer holds above `dst` now is a directory, and not removed
  have habove : ¬ src <+: dst := by
    intro hpre
    have hdir₁ := Tree.get?_of_isPrefix hpre hne hplaced.entry
    rcases hreturns with ⟨hnone, -⟩ | ⟨b, hfile⟩
    · rw [hdir₁] at hnone
      cases hnone
    · rw [hdir₁] at hfile
      cases hfile
  -- a source that the upper layer lacks needs a whiteout, so no file is above it
  have hwhited : src ≠ whiteoutPath dst → fs.upper.get? src = none →
      existsInLower src fs = true ∧ ¬ Blocked fs₁ src := by
    intro hsrc hnone
    have hlower := existsInLower_of_view hnone (by simp [hview])
    refine ⟨hlower, ?_⟩
    rcases hreturns with ⟨-, hfree⟩ | ⟨b, hfile⟩
    · apply hfree
      rwa [existsInLower, hplaced.lower]
    · exact not_blocked_of_upper (by simp [hfile])
  have hbelow : ¬ dst <+: src := by
    intro hpre
    have hup := prefix_dropLast_of_ne hpre (Ne.symm hne)
    have hsrc : src ≠ whiteoutPath dst := by
      rintro rfl
      rw [whiteoutPath_dropLast] at hup
      exact not_prefix_dropLast hplaced.ne_nil hup
    rcases get?_of_view_file hview with hnone | hfile
    · exact (hwhited hsrc hnone).2 ⟨dst, c, hup, hplaced.entry⟩
    · exact hdir (Tree.get?_of_isPrefix hpre (Ne.symm hne) hfile)
  refine ⟨hdir, hshut, ?_, hbelow, habove⟩
  rintro ⟨q, b, hq, hfile⟩
  by_cases hsrc : src = whiteoutPath dst
  · rw [hsrc, whiteoutPath_dropLast] at hq
    exact hshut (Or.inl ⟨q, b, hq, hfile⟩)
  have hqsrc : q ≠ src := by
    rintro rfl
    exact not_prefix_dropLast (Tree.ne_nil_of_file hfile) hq
  have hnone : fs.upper.get? src = none :=
    (get?_of_view_file hview).resolve_right fun hsome => by
      rw [Tree.get?_of_isPrefix (hq.trans (List.dropLast_prefix src)) hqsrc hsome] at hfile
      cases hfile
  obtain ⟨hlower, hfree⟩ := hwhited hsrc hnone
  by_cases hqmarker : q = whiteoutPath dst
  · refine hmarker ⟨fun he => hsrc he.symm, Or.inr ⟨hlower, ?_⟩⟩
    exact prefix_whiteoutPath_iff.mpr (Or.inr (hqmarker ▸ hq))
  · have hqdst : q ≠ dst := by
      rintro rfl
      exact hbelow (hq.trans (List.dropLast_prefix src))
    rcases hplaced.touched q hqdst hqmarker with hsame | ⟨hmissing, -⟩
    · exact hfree ⟨q, b, hq, hsame ▸ hfile⟩
    · rw [hmissing] at hfile
      cases hfile

/-! ### What a move shows -/

theorem ite_none_eq_iff {a b : Prop} [Decidable a] [Decidable b] {v : Option Node} :
    (if a then none else v) = (if b then none else v) ↔ (v ≠ none → (a ↔ b)) := by
  by_cases ha : a <;> by_cases hb : b <;> simp [ha, hb, eq_comm]

section Shows

variable (hplaced : Placed fs fs₁ dst n)
  (hremove : (LayerFS.removeFile src : VfsM Stack Unit).run fs₁ = .ok () fs')

include hplaced hremove

theorem hides_moveFile : fs'.upper.hides q = true ↔ HeldAfter fs src dst (whiteoutPath q) :=
  isSome_moveFile hplaced hremove

theorem opaqueAbove_moveFile :
    fs'.upper.opaqueAbove q = true ↔
      ∃ d, d <+: q.dropLast ∧ HeldAfter fs src dst (opaquePath d) := by
  simp only [Tree.opaqueAbove_eq_true, isSome_moveFile hplaced hremove]

theorem lower_moveFile : fs'.lower = fs.lower :=
  ((removeFile_spec fs₁ src).ok rfl hremove).lower.trans hplaced.lower

/-- What is neither moved nor a marker stays, or is a directory that was gained. -/
theorem get?_moveFile (hq : PlainPath q) (hqsrc : q ≠ src) (hqdst : q ≠ dst) :
    fs'.upper.get? q = fs.upper.get? q ∨
      fs.upper.get? q = none ∧ fs'.upper.get? q = some .dir := by
  have hremoved := (removeFile_spec fs₁ src).ok rfl hremove
  rcases hremoved.touched q hqsrc hq.unmarked.ne_whiteoutPath with hsame | ⟨hnone, hdir, -⟩
  · rw [hsame]
    exact (hplaced.touched q hqdst hq.unmarked.ne_whiteoutPath).imp_right fun h => ⟨h.1, h.2.1⟩
  · refine Or.inr ⟨?_, hdir⟩
    rcases hplaced.touched q hqdst hq.unmarked.ne_whiteoutPath with hsame | ⟨hmissing, -⟩
    · exact hsame.symm.trans hnone
    · exact hmissing

theorem view_moveFile_iff (hq : PlainPath q) (hqsrc : q ≠ src) (hqdst : q ≠ dst) :
    view fs' q = view fs q ↔ Unnoticed fs src dst q := by
  have hheld := isSome_moveFile hplaced hremove (x := q)
  have hkept := get?_moveFile hplaced hremove hq hqsrc hqdst
  -- what shows at `q` is decided by its marker, its own entry, or the lower layers, in that order
  by_cases hmarker : HeldAfter fs src dst (whiteoutPath q)
  · rw [view_of_hides ((hides_moveFile hplaced hremove).mpr hmarker)]
    exact ⟨fun h => ⟨fun _ => h.symm, fun hn => absurd hmarker hn, fun hn => absurd hmarker hn,
      fun hn => absurd hmarker hn⟩, fun h => (h.covered hmarker).symm⟩
  have hhides : fs'.upper.hides q = false :=
    Bool.eq_false_iff.mpr fun h => hmarker ((hides_moveFile hplaced hremove).mp h)
  cases hentry : fs.upper.get? q with
  | some m =>
    have hstays : fs'.upper.get? q = some m := by
      rcases hkept with hsame | ⟨hnone, -⟩
      · rw [hsame, hentry]
      · rw [hentry] at hnone
        cases hnone
    rw [view_of_upper hhides hstays]
    constructor
    · intro hsame
      exact ⟨fun h => absurd h hmarker, fun _ hnone => absurd (hentry.symm.trans hnone) (by simp),
        fun _ _ => hides_of_view hsame.symm,
        fun _ hnone => absurd (hentry.symm.trans hnone) (by simp)⟩
    · intro h
      rw [view_of_upper (h.entry hmarker (by simp [hentry])) hentry]
  | none =>
    -- an entry that was gained is a directory above one of the two names
    by_cases hgained : HeldAfter fs src dst q
    · have hdir : fs'.upper.get? q = some .dir := by
        rcases hkept with hsame | ⟨-, hdir⟩
        · have hsome := hheld.mpr hgained
          rw [hsame, hentry] at hsome
          cases hsome
        · exact hdir
      rw [view_of_upper hhides hdir]
      exact ⟨fun hsame => ⟨fun h => absurd h hmarker, fun _ _ _ => hsame.symm,
        fun _ h => absurd hentry h, fun _ _ h => absurd hgained h⟩,
        fun h => (h.gap hmarker hentry hgained).symm⟩
    · have hnone : fs'.upper.get? q = none :=
        Option.not_isSome_iff_eq_none.mp fun hsome => hgained (hheld.mp hsome)
      have hbefore : view fs q =
          if (fs.upper.hides q || fs.upper.opaqueAbove q) = true then none
          else lowerView fs.lower q := by
        cases hcase : fs.upper.hides q with
        | true => exact view_of_hides hcase
        | false => simp [view_of_passed hcase hentry]
      have hopaque := opaqueAbove_moveFile hplaced hremove (q := q)
      rw [hbefore, view_of_passed hhides hnone, lower_moveFile hplaced hremove, ite_none_eq_iff,
        Bool.or_eq_true, hopaque]
      exact ⟨fun hsame => ⟨fun h => absurd h hmarker, fun _ _ h => absurd h hgained,
        fun _ h => absurd hentry h, fun _ _ _ => hsame⟩,
        fun h => h.lower hmarker hentry hgained⟩

end Shows

/-- `move_file` returns and moves the file exactly if it is ready, the marker of the destination
does not come back, and nothing else shows. -/
theorem moves_iff (hne : src ≠ dst) (hview : view fs src = some (.file c)) :
    (∃ fs', (LayerFS.moveFile src dst : VfsM Stack Unit).run fs = .ok () fs' ∧
        Moved fs fs' src dst c) ↔
      MoveReady fs src dst ∧ ¬ HeldAfter fs src dst (whiteoutPath dst) ∧
        ∀ q, PlainPath q → q ≠ src → q ≠ dst → Unnoticed fs src dst q := by
  constructor
  · rintro ⟨fs', hrun, hmoved⟩
    obtain ⟨⟨⟩, fs₁, hcopy, hremove⟩ := run_bind_eq_ok.mp hrun
    obtain ⟨-, hdir, hshut⟩ := returns_copyFile_iff.mp ⟨(), fs₁, hcopy⟩
    obtain ⟨b, hb, hplaced⟩ := (copyFile_spec fs src dst).ok rfl hcopy
    obtain rfl : c = b := by simpa [hview] using hb
    -- what arrived is shown, so it is not whited out
    have hmarker : ¬ HeldAfter fs src dst (whiteoutPath dst) := by
      intro hheld
      have hhides := (hides_moveFile hplaced hremove).mpr hheld
      rw [hides_of_view hmoved.arrived] at hhides
      cases hhides
    exact ⟨.of_removes hdir hshut hne hview hplaced hremove hmarker, hmarker,
      fun q hq hqsrc hqdst => (view_moveFile_iff hplaced hremove hq hqsrc hqdst).mp
        (hmoved.elsewhere q hq hqsrc hqdst)⟩
  · rintro ⟨hready, hmarker, hunnoticed⟩
    obtain ⟨⟨⟩, fs₁, hcopy⟩ := returns_copyFile_iff.mpr ⟨⟨c, hview⟩, hready.dir, hready.shut⟩
    obtain ⟨b, hb, hplaced⟩ := (copyFile_spec fs src dst).ok rfl hcopy
    obtain rfl : c = b := by simpa [hview] using hb
    obtain ⟨⟨⟩, fs', hremove⟩ := hready.removes hne hview hplaced
    have hremoved := (removeFile_spec fs₁ src).ok rfl hremove
    refine ⟨fs', run_bind_eq_ok.mpr ⟨(), fs₁, hcopy, hremove⟩, ?_, ?_, ?_⟩
    · have hhides : fs'.upper.hides dst = false :=
        Bool.eq_false_iff.mpr fun h => hmarker ((hides_moveFile hplaced hremove).mp h)
      exact view_of_upper hhides (get?_removeFile_of_some hplaced.entry hremove (Ne.symm hne))
    · exact hremoved.view_eq_none
    · exact fun q hq hqsrc hqdst => (view_moveFile_iff hplaced hremove hq hqsrc hqdst).mpr
        (hunnoticed q hq hqsrc hqdst)

/-! ### Through the path wrapper -/

/-- The path wrapper asks first whether the destination exists. -/
theorem VfsPath.run_moveFile (h : view fs dst = none) :
    (VfsPath.moveFile src dst : VfsM Stack Unit).run fs =
      (LayerFS.moveFile src dst : VfsM Stack Unit).run fs := by
  have hexists : FileSystem.existsAt fs dst = .ok false := by
    change LayerFS.existsAt dst fs = _
    rw [LayerFS.existsAt_eq, h]
    rfl
  rw [VfsPath.moveFile, EStateM.run_bind, run_ask, hexists]
  rfl

theorem VfsPath.returns_moveFile_iff :
    Returns (VfsPath.moveFile src dst : VfsM Stack Unit) fs ↔
      view fs dst = none ∧ Returns (LayerFS.moveFile src dst : VfsM Stack Unit) fs := by
  by_cases h : view fs dst = none
  · rw [Returns, VfsPath.run_moveFile h]
    exact (and_iff_right h).symm
  · constructor
    · intro hreturns
      exact absurd hreturns (refuses_unlessThere (Or.inl h)).not_returns
    · intro hboth
      exact absurd hboth.1 h

end Rspacefs
