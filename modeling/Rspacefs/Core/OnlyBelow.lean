import Rspacefs.Core.Gaps
import Rspacefs.Core.Kinds

/-!
# Changes at and below one path

Copying a directory changes the upper layer below the destination, removing one below the source,
and both may make the directories above. What either does to the rest of the view is the same
account: away from the path only gained directories are seen.

## Main definitions

* `Apart` — two paths, neither of which is a prefix of the other
* `OnlyBelow` — a run changed the upper layer at and below a path, and made directories above

## Main results

* `OnlyBelow.view_of_apart` — below a path that is apart everything shows as before
* `OnlyBelow.view_of_gapsShow` — and elsewhere too, where the gaps above the path show
* `copyDirRecursive_onlyBelow`, `removeDirRecursive_onlyBelow` — the two recursions
-/

namespace Rspacefs

open Lib LayerFS

variable {fs fs' fs₁ : Stack} {p q r o src dest : Path} {frames : Nat}

/-! ### Paths -/

theorem NoMarker.append (hp : NoMarker p) (hq : NoMarker q) : NoMarker (p ++ q) := by
  intro n hn
  rcases List.mem_append.mp hn with hn | hn
  · exact hp n hn
  · exact hq n hn

theorem Unmarked.append (hp : Unmarked p) (hne : p ≠ []) (hr : NoMarker r) : Unmarked (p ++ r) := by
  refine ⟨hp.1.append hr, fun h => hp.2 ?_⟩
  rwa [List.head?_append_of_ne_nil _ hne] at h

/-- A marker is below what its path is below. -/
theorem Unmarked.not_prefix_whiteoutPath (hp : Unmarked p) (h : ¬ p <+: q) :
    ¬ p <+: whiteoutPath q := by
  intro hpre
  rw [whiteoutPath, List.prefix_concat_iff] at hpre
  rcases hpre with he | hpre
  · apply hp.ne_whiteoutPath (q := q)
    rw [he, whiteoutPath]
  · exact h (hpre.trans (List.dropLast_prefix q))

/-- The marker of a path below `p` is below `p` as well, unless it is that of `p`. -/
theorem whiteoutPath_append (p r : Path) :
    p <+: whiteoutPath (p ++ r) ∨ whiteoutPath (p ++ r) = whiteoutPath p := by
  rcases List.eq_nil_or_concat' r with rfl | ⟨d, n, rfl⟩
  · simp
  · left
    rw [← List.append_assoc, whiteoutPath_concat, List.append_assoc]
    exact List.prefix_append p _

/-- Two paths without markers, neither of which is the other or above it. -/
structure Apart (src dest : Path) : Prop where
  source : Unmarked src
  target : Unmarked dest
  not_above : ¬ src <+: dest
  not_below : ¬ dest <+: src

namespace Apart

theorem symm (h : Apart src dest) : Apart dest src := ⟨h.target, h.source, h.not_below, h.not_above⟩

theorem ne_nil (h : Apart src dest) : src ≠ [] := by
  rintro rfl
  exact h.not_above List.nil_prefix

theorem unmarked (h : Apart src dest) (hr : NoMarker r) : Unmarked (src ++ r) :=
  h.source.append h.ne_nil hr

theorem not_prefix (h : Apart src dest) (r : Path) : ¬ src <+: dest ++ r := by
  intro hpre
  rcases List.prefix_or_prefix_of_prefix hpre (List.prefix_append dest r) with hle | hle
  · exact h.not_above hle
  · exact h.not_below hle

theorem not_prefix_of_above (h : Apart src dest) (hq : q <+: src) : ¬ dest <+: q := by
  intro hpre
  exact h.not_below (hpre.trans hq)

theorem not_prefix_of_parent (h : Apart src dest) (hq : q <+: src.dropLast) : ¬ src <+: q := by
  intro hpre
  exact not_prefix_dropLast h.ne_nil (hpre.trans hq)

end Apart

/-! ### Changes at and below a path -/

/-- A run changed what is at and below `p`, the marker of `p`, and nothing else but that it made
missing directories above `p`. -/
structure OnlyBelow (fs : Stack) (p : Path) (fs' : Stack) : Prop where
  lower : fs'.lower = fs.lower
  off : ∀ q, ¬ p <+: q → q ≠ whiteoutPath p → fs'.upper.get? q = fs.upper.get? q ∨
    fs.upper.get? q = none ∧ fs'.upper.get? q = some .dir ∧ q <+: p.dropLast

namespace OnlyBelow

theorem refl (fs : Stack) (p : Path) : OnlyBelow fs p fs := ⟨rfl, fun _ _ _ => Or.inl rfl⟩

/-- One more change, below `p`, at its marker or of a missing directory above it. -/
theorem upd {x : Option Node} (h : OnlyBelow fs p fs₁) (hupd : Upd fs₁ fs' q x)
    (hq : p <+: q ∨ q = whiteoutPath p ∨ q <+: p ∧ fs₁.upper.get? q = none ∧ x = some .dir) :
    OnlyBelow fs p fs' := by
  refine ⟨hupd.lower.trans h.lower, fun y hpy hym => ?_⟩
  by_cases hyq : y = q
  · subst hyq
    obtain ⟨hyp, hnone, rfl⟩ := (hq.resolve_left hpy).resolve_left hym
    have hne : y ≠ p := by
      rintro rfl
      exact hpy (List.prefix_refl y)
    -- what is missing now was missing at the start
    rcases h.off y hpy hym with hsame | ⟨-, hdir, -⟩
    · exact Or.inr ⟨hsame ▸ hnone, hupd.get?_self, prefix_dropLast_of_ne hyp hne⟩
    · rw [hnone] at hdir
      cases hdir
  · rw [hupd.get?_of_ne hyq]
    exact h.off y hpy hym

/-- A directory on the way to a path below `p`. -/
theorem mkdir (h : OnlyBelow fs p fs₁) (hq : q <+: p ++ r) (hnone : fs₁.upper.get? q = none)
    (hupd : Upd fs₁ fs' q (some .dir)) : OnlyBelow fs p fs' := by
  apply h.upd hupd
  rcases List.prefix_or_prefix_of_prefix (List.prefix_append p r) hq with hpq | hqp
  · exact Or.inl hpq
  · exact Or.inr (Or.inr ⟨hqp, hnone, rfl⟩)

theorem puts (h : OnlyBelow fs p fs₁) (hputs : Puts (p ++ r) fs₁ fs') : OnlyBelow fs p fs' := by
  cases hputs with
  | mkdir q hq _ hnone _ hupd => exact h.mkdir hq hnone hupd
  | unmark _ hupd => exact h.upd hupd ((whiteoutPath_append p r).imp_right Or.inl)
  | write _ _ _ _ hupd => exact h.upd hupd (Or.inl (List.prefix_append p r))

theorem cuts (h : OnlyBelow fs p fs₁) (hcuts : Cuts (p ++ r) fs₁ fs') : OnlyBelow fs p fs' := by
  cases hcuts with
  | mkdir q hq _ hnone _ hupd => exact h.mkdir (hq.trans (List.dropLast_prefix _)) hnone hupd
  | drop _ _ _ hupd => exact h.upd hupd (Or.inl (List.prefix_append p r))
  | mark _ _ _ hupd => exact h.upd hupd ((whiteoutPath_append p r).imp_right Or.inl)

/-! #### What it leaves of the upper layer -/

theorem get?_of_off (h : OnlyBelow fs p fs') (hpq : ¬ p <+: q) (hqm : q ≠ whiteoutPath p)
    (hqp : ¬ q <+: p) : fs'.upper.get? q = fs.upper.get? q := by
  refine (h.off q hpq hqm).resolve_right ?_
  rintro ⟨-, -, hpre⟩
  exact hqp (hpre.trans (List.dropLast_prefix p))

theorem get?_of_isSome (h : OnlyBelow fs p fs') (hpq : ¬ p <+: q) (hqm : q ≠ whiteoutPath p)
    (hsome : (fs.upper.get? q).isSome) : fs'.upper.get? q = fs.upper.get? q := by
  refine (h.off q hpq hqm).resolve_right ?_
  rintro ⟨hnone, -⟩
  simp [hnone] at hsome

theorem get?_whiteoutPath (h : OnlyBelow fs p fs') (hp : Unmarked p) (hq : Unmarked q)
    (hpq : ¬ p <+: q) :
    fs'.upper.get? (whiteoutPath q) = fs.upper.get? (whiteoutPath q) := by
  apply h.get?_of_off (hp.not_prefix_whiteoutPath hpq)
  · intro he
    apply hpq
    rw [hq.whiteoutPath_inj hp he]
  · intro hpre
    exact (hp.of_isPrefix hpre).ne_whiteoutPath rfl

theorem hides (h : OnlyBelow fs p fs') (hp : Unmarked p) (hq : Unmarked q) (hpq : ¬ p <+: q) :
    fs'.upper.hides q = fs.upper.hides q := by
  rw [Tree.hides, Tree.hides, h.get?_whiteoutPath hp hq hpq]

theorem get?_opaquePath (h : OnlyBelow fs p fs') (hp : Unmarked p) (hpq : ¬ p <+: q) :
    fs'.upper.get? (opaquePath q) = fs.upper.get? (opaquePath q) := by
  apply h.get?_of_off
  · rw [opaquePath, List.prefix_concat_iff]
    rintro (he | hpre)
    · exact hp.ne_opaquePath he
    · exact hpq hpre
  · exact hp.whiteoutPath_ne_opaquePath.symm
  · intro hpre
    exact (hp.of_isPrefix hpre).ne_opaquePath rfl

/-- Below a path that is apart from `p` nothing changed. -/
theorem get?_of_apart (h : OnlyBelow fs p fs') (ha : Apart p o) (hq : o <+: q) :
    fs'.upper.get? q = fs.upper.get? q := by
  obtain ⟨s, rfl⟩ := hq
  apply h.get?_of_off (ha.not_prefix s)
  · intro he
    exact ha.target.not_prefix_whiteoutPath ha.not_below (he ▸ List.prefix_append o s)
  · intro hpre
    exact ha.not_below ((List.prefix_append o s).trans hpre)

theorem fileInTheWay_iff (h : OnlyBelow fs p fs') (ha : Apart p o) :
    FileInTheWay fs' (o ++ r) ↔ FileInTheWay fs (o ++ r) := by
  rw [FileInTheWay, FileInTheWay, h.lower, h.get?_of_apart ha (List.prefix_append o r),
    h.get?_opaquePath ha.source (ha.not_prefix r)]

/-! #### What it leaves of the view -/

/-- A path that is not below `p` shows what it did, or was gained. -/
theorem view_cases (h : OnlyBelow fs p fs') (hp : Unmarked p) (hq : Unmarked q) (hpq : ¬ p <+: q) :
    view fs' q = view fs q ∨
      fs.upper.get? q = none ∧ fs'.upper.get? q = some .dir ∧ q <+: p.dropLast := by
  refine (h.off q hpq hq.ne_whiteoutPath).imp_left fun hentry => ?_
  refine view_of_agree_above h.lower hentry (h.get?_whiteoutPath hp hq hpq) fun d hd => ?_
  apply h.get?_opaquePath hp
  intro hpd
  exact hpq (hpd.trans (hd.trans (List.dropLast_prefix q)))

theorem view_of_apart (h : OnlyBelow fs p fs') (ha : Apart p o) (hr : NoMarker r) :
    view fs' (o ++ r) = view fs (o ++ r) := by
  refine (h.view_cases ha.source (ha.symm.unmarked hr) (ha.not_prefix r)).resolve_right ?_
  rintro ⟨-, -, hpre⟩
  exact ha.not_below ((List.prefix_append o r).trans (hpre.trans (List.dropLast_prefix p)))

theorem view_self (h : OnlyBelow fs p fs') (ha : Apart p o) : view fs' o = view fs o := by
  have hself := h.view_of_apart ha (r := []) (by simp [NoMarker])
  rwa [List.append_nil] at hself

/-- Where the gaps above `p` show, making directories there does not. -/
theorem view_of_gapsShow (h : OnlyBelow fs p fs') (hgaps : GapsShow fs p) (hp : Unmarked p)
    (hq : Unmarked q) (hpq : ¬ p <+: q) : view fs' q = view fs q := by
  rcases h.view_cases hp hq hpq with hsame | ⟨hnone, hdir, hpre⟩
  · exact hsame
  · have hmarker := h.hides hp hq hpq
    cases hhides : fs.upper.hides q with
    | true => rw [view_of_hides hhides, view_of_hides (hmarker.trans hhides)]
    | false => rw [view_of_upper (hmarker.trans hhides) hdir, hgaps q hpre hnone hhides]

end OnlyBelow

/-! ### The two recursions -/

theorem copyDirRecursive_onlyBelow
    (hrun : (copyDirRecursive frames src dest : VfsM Stack Unit).run fs = .ok () fs') :
    OnlyBelow fs dest fs' :=
  (copyDirRecursive_keeps (I := OnlyBelow fs dest) frames src dest fun _ _ _ _ h hputs =>
    h.puts hputs).ok (OnlyBelow.refl fs dest) hrun

theorem removeDirRecursive_onlyBelow
    (hrun : (removeDirRecursive frames src : VfsM Stack Unit).run fs = .ok () fs') :
    OnlyBelow fs src fs' := by
  refine (removeDirRecursive_keeps (I := OnlyBelow fs src) frames src
    (fun _ _ _ _ h hcuts => h.cuts hcuts) ?_).ok (OnlyBelow.refl fs src) hrun
  intro r m _ _ _ _ h hupd
  refine h.upd hupd (Or.inl ?_)
  rw [List.append_assoc]
  exact List.prefix_append src _

end Rspacefs
