import Rspacefs.Lib.Run
import Rspacefs.Core.TreeView
import Rspacefs.Core.Pointwise

/-!
# Runs that keep the merged view a tree

The operations of `LayerFS` as one type, the condition on the state before each
under which it keeps the merged view a tree, and the theorem over whole runs. The
single methods follow from `Ready`. `move_dir` copies and then removes, level by
level, and needs an invariant for each half:

* `Filling` — while copying to `dest`, everything that shows below the target comes
  from the upper layer, and no whiteout is added
* `Clearing` — while removing, the lower layers show nothing below the source

## Main results

* `copyDirRecursive_filling`, `removeDirRecursive_clearing` — the two halves
* `Op.keeps_isTree` — one operation
* `ancestors_visible_of_run` — a run
-/

namespace Rspacefs

open Lib LayerFS

variable {fs fs' fs₀ : Stack} {p q d dest s : Path} {n m : Name} {skip : Path → Prop}

/-! ### Copying -/

/-- While copying into `d`: compared with the start `fs₀` no whiteout and no opaque
marker was added, what shows below `d` is in the upper layer except where `skip`
allows it, and nothing on the way down to `dest` is whited out. -/
structure Filling (fs₀ : Stack) (d dest : Path) (skip : Path → Prop) (fs : Stack) : Prop where
  tree : IsTree fs
  lower : fs.lower = fs₀.lower
  hides : ∀ x, Unmarked x → fs.upper.hides x = true → fs₀.upper.hides x = true
  opaques : ∀ x, fs.upper.get? (opaquePath x) = fs₀.upper.get? (opaquePath x)
  covered : ∀ x, Unmarked x → d <+: x → x ≠ d → ¬ skip x → fs.upper.get? x = none →
    view fs x = none
  openTo : ∀ q, q <+: dest → fs.upper.hides q = false

/-- Other than at `p`, a change on the way to `p` shows only where it stored
something. -/
theorem Puts.view_of_get?_eq_none (h : Puts p fs fs') (hp : Unmarked p) (hq : Unmarked q)
    (hqp : q ≠ p) (hnone : fs'.upper.get? q = none) :
    view fs' q = view fs q ∧ fs.upper.get? q = none := by
  cases h with
  | mkdir r hr _ _ _ h =>
    -- `q` has no entry afterwards, so it is not the directory that was made
    have hqr : q ≠ r := by
      rintro rfl
      rw [h.get?_self] at hnone
      cases hnone
    exact ⟨h.view_entry (hp.of_isPrefix hr) hqr, h.get?_of_ne hqr ▸ hnone⟩
  | unmark _ h =>
    exact ⟨h.view_marker hp hq hqp, h.get?_of_ne hq.ne_whiteoutPath ▸ hnone⟩
  | write c _ _ _ h => exact ⟨h.view_entry hp hqp, h.get?_of_ne hqp ▸ hnone⟩

namespace Filling

/-- Writing at `dest` may uncover `dest` itself for a moment. -/
theorem puts (h : Filling fs₀ d dest.dropLast (· = dest) fs) (hd : d <+: dest)
    (hdest : Unmarked dest) (hputs : Puts dest fs fs') :
    Filling fs₀ d dest.dropLast (· = dest) fs' where
  tree := by
    refine hputs.isTree hdest h.tree h.openTo fun n hn hnone => ?_
    refine h.covered _ hn (hd.trans (List.prefix_append _ _)) ?_ (by simp) hnone
    intro he
    exact not_concat_prefix (he ▸ hd)
  lower := hputs.lower.trans h.lower
  hides := fun x hx hhides => h.hides x hx (hputs.hides hdest hx hhides)
  opaques := fun x => (hputs.get?_opaquePath hdest.1 x).trans (h.opaques x)
  covered := by
    intro x hx hdx hne hskip hnone
    obtain ⟨hview, hnone'⟩ := hputs.view_of_get?_eq_none hdest hx hskip hnone
    rw [hview]
    exact h.covered x hx hdx hne hskip hnone'
  openTo := hputs.openAbove hdest h.openTo

theorem weaken {dest' : Path} {skip' : Path → Prop} (h : Filling fs₀ d dest skip fs)
    (hdest : dest' <+: dest) (hskip : ∀ x, skip x → skip' x) : Filling fs₀ d dest' skip' fs where
  tree := h.tree
  lower := h.lower
  hides := h.hides
  opaques := h.opaques
  covered := fun x hx hdx hne hs => h.covered x hx hdx hne fun hs' => hs (hskip x hs')
  openTo := fun q hq => h.openTo q (hq.trans hdest)

/-- Once `dest` is stored it needs no exception. -/
theorem settle (h : Filling fs₀ d dest.dropLast (· = dest) fs)
    (hsome : (fs.upper.get? dest).isSome) :
    Filling fs₀ d dest.dropLast (fun _ => False) fs where
  tree := h.tree
  lower := h.lower
  hides := h.hides
  opaques := h.opaques
  covered := by
    intro x hx hdx hne _ hnone
    refine h.covered x hx hdx hne ?_ hnone
    rintro rfl
    simp [hnone] at hsome
  openTo := h.openTo

/-- Down into `dest`, whose marker is gone. -/
theorem enter (h : Filling fs₀ d dest.dropLast skip fs)
    (hmark : fs.upper.hides dest = false) : Filling fs₀ d dest skip fs where
  tree := h.tree
  lower := h.lower
  hides := h.hides
  opaques := h.opaques
  covered := h.covered
  openTo := by
    intro q hq
    by_cases hqd : q = dest
    · exact hqd ▸ hmark
    · refine h.openTo q ?_
      rcases List.eq_nil_or_concat dest with rfl | ⟨e, n, rfl⟩
      · exact absurd (List.prefix_nil.mp hq) hqd
      · rw [List.concat_eq_append] at *
        rw [List.dropLast_concat]
        exact (List.prefix_concat_iff.mp hq).resolve_left hqd

end Filling

section

variable (fs₀) (hd : d <+: dest) (hdest : Unmarked dest)
include hd hdest

theorem Filling.keeps : ∀ fs fs', Filling fs₀ d dest.dropLast (· = dest) fs → Puts dest fs fs' →
    Filling fs₀ d dest.dropLast (· = dest) fs' :=
  fun _ _ h hputs => h.puts hd hdest hputs

theorem removeWhiteout_filling :
    Triple (Filling fs₀ d dest.dropLast (· = dest)) (removeWhiteout dest)
      (fun _ fs => Filling fs₀ d dest.dropLast (· = dest) fs ∧ fs.upper.hides dest = false)
      IsTree := by
  refine Triple.of_forall fun fs hfs => ?_
  refine ((removeWhiteout_keeps (keptByUnmark_of_puts (Filling.keeps fs₀ hd hdest))).and
    (removeWhiteout_spec fs dest)).weaken (by rintro _ rfl; exact ⟨hfs, rfl⟩) ?_
    (fun _ h => h.1.tree)
  rintro _ fs' ⟨h, -, hget⟩
  exact ⟨h, Tree.hides_eq_false.mpr (by simp [hget])⟩

/-- Making the target directory of one level. -/
theorem makeTarget_filling :
    Triple (fun fs => Filling fs₀ d dest.dropLast (· = dest) fs ∧ fs.upper.hides dest = false)
      (onUpper (unlessExists dest (VfsPath.createDir dest)))
      (fun _ => Filling fs₀ d dest (fun _ => False)) IsTree := by
  refine onUpper_rule fun lower => Triple.of_forall fun u ⟨hu, hmark⟩ => ?_
  refine unlessExists_spec (fun hsome => (hu.settle hsome).enter hmark) fun hnone => ?_
  refine (VfsPath.createDir_spec u dest).weaken (fun _ h => h) ?_ ?_
  · rintro _ u' ⟨-, hparent, hne, hget⟩
    have hupd : Upd ⟨u, lower⟩ ⟨u', lower⟩ dest (some .dir) := ⟨rfl, hget⟩
    have hu' := hu.puts hd hdest (.mkdir dest (List.prefix_refl _) hne hnone hparent hupd)
    refine (hu'.settle (by simp [hget])).enter ?_
    rw [hupd.hides_entry hdest]
    exact hmark
  · rintro _ rfl
    exact hu.tree

/-- Copying one file of a level. -/
theorem copyFile_filling (src : Path) :
    Triple (Filling fs₀ d dest.dropLast (fun _ => False)) (LayerFS.copyFile src dest)
      (fun _ => Filling fs₀ d dest.dropLast (fun _ => False)) IsTree := by
  refine Triple.of_forall fun fs hfs => ?_
  refine ((copyFile_keeps (Filling.keeps fs₀ hd hdest) src).and
    (copyFile_spec fs src dest)).weaken ?_ ?_ (fun _ h => h.1.tree)
  · rintro _ rfl
    exact ⟨hfs.weaken (List.prefix_refl _) (fun _ h => h.elim), rfl⟩
  · rintro _ fs' ⟨h, c, -, hplaced⟩
    exact h.settle (by simp [hplaced.entry])

end

/-- The copying half of `move_dir`. -/
theorem copyDirRecursive_filling (frames : Nat) (src dest : Path) (hd : d <+: dest)
    (hdest : Unmarked dest) (hne : dest ≠ []) :
    Triple (Filling fs₀ d dest.dropLast (· = dest)) (copyDirRecursive frames src dest)
      (fun _ => Filling fs₀ d dest (fun _ => False)) IsTree := by
  -- at each level the target is made first, and then is filled
  have hlevels : CopyLevels (fun _ dest => d <+: dest ∧ Unmarked dest ∧ dest ≠ [])
      (fun _ dest => Filling fs₀ d dest.dropLast (· = dest))
      (fun _ dest => Filling fs₀ d dest (fun _ => False)) IsTree := by
    constructor
    case down =>
      rintro _ dest n ⟨hd, hdest, hne⟩ hn
      exact ⟨hd.trans (List.prefix_append _ _), hdest.concat hne hn, by simp⟩
    case before => exact fun _ _ _ _ h => h.tree
    case during => exact fun _ _ _ _ h => h.tree
    case target =>
      rintro _ dest ⟨hd, hdest, -⟩
      have hparents := (ensureUpperParents_puts (Filling.keeps fs₀ hd hdest)).weaken (fun _ h => h)
        (fun _ _ h => h) fun _ h => h.tree
      exact Triple.bind hparents fun _ => Triple.bind (removeWhiteout_filling fs₀ hd hdest) fun _ =>
        makeTarget_filling fs₀ hd hdest
    case enter =>
      intro _ dest n fs _ _ _ h
      rw [List.dropLast_concat]
      exact h.weaken (List.prefix_refl _) (fun _ h => h.elim)
    case leave =>
      intro _ dest n fs _ _ h
      exact h.weaken (List.prefix_append _ _) (fun _ h => h)
    case file =>
      rintro src dest n c ⟨hd, hdest, hne⟩ hn
      have hcopy := copyFile_filling fs₀ (hd.trans (List.prefix_append _ _))
        (hdest.concat hne hn) (src ++ [n])
      rw [List.dropLast_concat] at hcopy
      exact hcopy.weaken (fun _ h => h.1) (fun _ _ h => h) fun _ h => h
  exact hlevels.triple frames src dest ⟨hd, hdest, hne⟩

/-! ### Removing -/

/-- The lower layers show nothing strictly below `s`, either because they hold
nothing there or because of an opaque marker of the upper layer in a directory
above `s`. -/
def Bare (fs : Stack) (s : Path) : Prop :=
  fs.upper.opaqueAbove s = true ∨
    ∀ r, r ≠ [] → Unmarked (s ++ r) → lowerView fs.lower (s ++ r) = none

/-- An opaque marker above a directory is above everything in it. -/
theorem Tree.opaqueAbove_of_isPrefix {t : Tree} (h : t.opaqueAbove s = true) (hsp : s <+: p) :
    t.opaqueAbove p = true := by
  rw [Tree.opaqueAbove_eq_true] at h ⊢
  obtain ⟨q, hq, hsome⟩ := h
  exact ⟨q, hq.trans (dropLast_prefix_dropLast hsp), hsome⟩

/-- Below a bare path only the upper layer shows. -/
theorem Bare.view_eq_none (h : Bare fs s) (hsp : s <+: p) (hne : s ≠ p) (hp : Unmarked p)
    (hnone : fs.upper.get? p = none) : view fs p = none := by
  cases hhides : fs.upper.hides p with
  | true => exact view_of_hides hhides
  | false =>
    rw [view_of_passed hhides hnone]
    rcases h with hopq | hlower
    · rw [if_pos (Tree.opaqueAbove_of_isPrefix hopq hsp)]
    · obtain ⟨r, rfl⟩ := hsp
      rw [hlower r (fun hr => hne (by simp [hr])) hp, ite_self]

/-- While removing `s`, at `p`: `s` is bare and nothing on the way down to `p` is
whited out. -/
structure Clearing (s p : Path) (fs : Stack) : Prop where
  tree : IsTree fs
  bare : Bare fs s
  openTo : ∀ q, q <+: p → fs.upper.hides q = false

theorem Bare.of_agree (h : Bare fs s) (hlower : fs'.lower = fs.lower)
    (hopq : ∀ q, q <+: s.dropLast →
      fs'.upper.get? (opaquePath q) = fs.upper.get? (opaquePath q)) : Bare fs' s := by
  rcases h with h | h
  · left
    rw [Tree.opaqueAbove_eq_true] at h ⊢
    obtain ⟨q, hq, hsome⟩ := h
    exact ⟨q, hq, by rwa [hopq q hq]⟩
  · right
    rw [hlower]
    exact h

/-- Two layerings in which a directory is bare show the same below it where their upper layers
agree on the entry and its marker. -/
theorem Bare.view_congr (h : Bare fs s) (h' : Bare fs' s) (hsp : s <+: p) (hne : s ≠ p)
    (hp : Unmarked p) (hentry : fs'.upper.get? p = fs.upper.get? p)
    (hmarker : fs'.upper.get? (whiteoutPath p) = fs.upper.get? (whiteoutPath p)) :
    view fs' p = view fs p := by
  have hhides : fs'.upper.hides p = fs.upper.hides p := by rw [Tree.hides, Tree.hides, hmarker]
  cases hget : fs.upper.get? p with
  | none =>
    rw [h.view_eq_none hsp hne hp hget, h'.view_eq_none hsp hne hp (hentry.trans hget)]
  | some node =>
    cases hidden : fs.upper.hides p with
    | true => rw [view_of_hides hidden, view_of_hides (hhides.trans hidden)]
    | false =>
      rw [view_of_upper hidden hget, view_of_upper (hhides.trans hidden) (hentry.trans hget)]

namespace Clearing

theorem covered (h : Clearing s p fs) (hsq : s <+: q) : Covered fs q := by
  intro n hn hnone
  refine h.bare.view_eq_none (hsq.trans (List.prefix_append _ _)) ?_ hn hnone
  intro he
  exact not_concat_prefix (he ▸ hsq)

theorem cuts (h : Clearing s q.dropLast fs) (hsq : s <+: q) (hq : Unmarked q)
    (hcuts : Cuts q fs fs') : Clearing s q.dropLast fs' where
  tree := hcuts.isTree hq h.tree h.openTo (h.covered hsq)
  bare := h.bare.of_agree hcuts.lower fun x _ => hcuts.get?_opaquePath hq.1 x
  openTo := hcuts.openAbove hq h.openTo

theorem up (h : Clearing s p fs) (hqp : q <+: p) : Clearing s q fs where
  tree := h.tree
  bare := h.bare
  openTo := fun x hx => h.openTo x (hx.trans hqp)

/-- Down into a visible directory. -/
theorem enter (h : Clearing s p fs) (hq : Unmarked q) (hview : view fs q = some .dir) :
    Clearing s q fs where
  tree := h.tree
  bare := h.bare
  openTo := by
    intro x hx
    by_cases hxq : x = q
    · exact hides_of_view (hxq ▸ hview)
    · exact hides_of_view (h.tree.of_isPrefix hq (by simp [hview]) hx hxq)

/-- Dropping a marker from the directory being removed. -/
theorem dropMarker (h : Clearing s p fs) (hsp : s <+: p) (hp : Unmarked p) (hne : p ≠ [])
    (hs : s ≠ []) (hm : IsMarker m) (hsome : (fs.upper.get? (p ++ [m])).isSome)
    (hupd : Upd fs fs' (p ++ [m]) none) : Clearing s p fs' := by
  obtain ⟨n, rfl⟩ := hm
  have hbare : Bare fs' s := by
    refine h.bare.of_agree hupd.lower fun q hq => hupd.get?_of_ne fun he => ?_
    obtain rfl := (List.append_inj' he rfl).1
    exact not_prefix_dropLast hs (hsp.trans hq)
  -- no path is newly hidden
  have hhides : ∀ x, fs'.upper.hides x = true → fs.upper.hides x = true := by
    intro x hx
    by_cases he : whiteoutPath x = p ++ [whiteoutPrefix ++ n]
    · rw [Tree.hides, he]
      exact hsome
    · rwa [Tree.hides, hupd.get?_of_ne he] at hx
  have hopen : ∀ q, q <+: p → fs'.upper.hides q = false := by
    intro q hq
    have hfalse := h.openTo q hq
    rw [Bool.eq_false_iff] at hfalse ⊢
    exact fun htrue => hfalse (hhides q htrue)
  refine ⟨?_, hbare, hopen⟩
  by_cases hn : IsMarker n
  · -- no client path has this marker; as an opaque marker it covered nothing
    suffices hview : ∀ x, Unmarked x → view fs' x = view fs x by
      intro x hx hxne hxview
      rw [hview x hx] at hxview
      rw [hview _ hx.dropLast]
      exact h.tree x hx hxne hxview
    intro x hx
    have hentry : fs'.upper.get? x = fs.upper.get? x :=
      hupd.get?_of_ne fun he => hx.1 _ (he ▸ List.mem_append_right p (List.mem_singleton_self _))
        (isMarker_whiteoutPrefix_append n)
    have hmarker : fs'.upper.get? (whiteoutPath x) = fs.upper.get? (whiteoutPath x) := by
      refine hupd.get?_of_ne fun he => ?_
      have hname : (splitPath x).2 = n := by
        have := (List.append_inj' he rfl).2
        simpa using this
      exact hx.not_isMarker_name (hname ▸ hn)
    by_cases hpx : p <+: x ∧ p ≠ x
    · -- below the directory an opaque marker makes no difference
      have hsx : s ≠ x := by
        rintro rfl
        exact hpx.2 (hpx.1.eq_of_length_le hsp.length_le)
      exact h.bare.view_congr hbare (hsp.trans hpx.1) hsx hx hentry hmarker
    · -- elsewhere the dropped marker was not asked for
      refine view_of_agree_above hupd.lower hentry hmarker fun q hq => ?_
      apply hupd.get?_of_ne
      intro he
      obtain rfl := (List.append_inj' he rfl).1
      refine hpx ⟨hq.trans (List.dropLast_prefix x), ?_⟩
      rintro rfl
      exact not_prefix_dropLast hne hq
  · -- a whiteout: the path it stands for may show again, below a visible directory
    have hq : Unmarked (p ++ [n]) := hp.concat hne hn
    refine h.tree.unmark hq (fun q hqp => h.openTo q (by simpa using hqp)) ?_
      (by rwa [whiteoutPath_concat])
    rw [Tree.hides, whiteoutPath_concat]
    exact hsome

end Clearing

/-- The removing half of `move_dir`. -/
theorem removeDirRecursive_clearing (frames : Nat) (p : Path) (hsp : s <+: p) (hp : Unmarked p)
    (hs : s ≠ []) :
    Triple (Clearing s p) (removeDirRecursive frames p) (fun _ => Clearing s p.dropLast)
      IsTree := by
  have hne : ∀ p, s <+: p → p ≠ [] := by
    rintro _ hsp rfl
    exact hs (List.prefix_nil.mp hsp)
  -- what is below `p` goes before `p` does, and the markers between the two
  have hlevels : RemoveLevels (fun p => s <+: p ∧ Unmarked p) (Clearing s) (Clearing s) (Clearing s)
      IsTree := by
    constructor
    case down =>
      rintro p n ⟨hsp, hp⟩ hn
      exact ⟨hsp.trans (List.prefix_append _ _), hp.concat (hne p hsp) hn⟩
    case before => exact fun _ _ _ h => h.tree
    case list => exact fun _ _ _ _ h _ => h
    case enter =>
      rintro p n fs ⟨hsp, hp⟩ hn hview h
      exact h.enter (hp.concat (hne p hsp) hn) hview
    case file =>
      rintro p n c ⟨hsp, hp⟩ hn
      have hchild : s <+: p ++ [n] := hsp.trans (List.prefix_append _ _)
      refine (removeFile_keeps fun fs fs' (h : Clearing s p fs) hcuts => ?_).weaken (fun _ h => h.1)
        (fun _ _ h => h) fun _ h => h.tree
      have hup : Clearing s (p ++ [n]).dropLast fs := by rwa [List.dropLast_concat]
      simpa using hup.cuts hchild (hp.concat (hne p hsp) hn) hcuts
    case markers =>
      rintro p ⟨hsp, hp⟩
      exact (removeMarkers_keeps fun m c fs fs' (h : Clearing s p fs) hm hfile hupd =>
        h.dropMarker hsp hp (hne p hsp) hs hm (by simp [hfile]) hupd).weaken (fun _ h => h)
          (fun _ _ h => h) fun _ h => h.tree
    case dir =>
      rintro p ⟨hsp, hp⟩
      exact (removeDir_keeps fun fs fs' (h : Clearing s p.dropLast fs) hcuts =>
        h.cuts hsp hp hcuts).weaken (fun _ h => h.up (List.dropLast_prefix p)) (fun _ _ h => h)
        (fun _ h => h.tree)
  exact hlevels.triple frames p ⟨hsp, hp⟩

/-! ### The operations -/

/-- The changing operations of `LayerFS`; a created or appended file is written
through the handle it returned. -/
inductive Op
  | createFile (p : Path) (w : Bytes)
  | createDir (p : Path)
  | appendFile (p : Path) (w : Bytes)
  | removeFile (p : Path)
  | removeDir (p : Path)
  | copyFile (s p : Path)
  | moveFile (s p : Path)
  | moveDir (frames : Nat) (s p : Path)

namespace Op

def exec : Op → VfsM Stack Unit
  | createFile p w => thenWrite (LayerFS.createFile p) w
  | createDir p => LayerFS.createDir p
  | appendFile p w => thenWrite (LayerFS.appendFile p) w
  | removeFile p => LayerFS.removeFile p
  | removeDir p => LayerFS.removeDir p
  | copyFile s p => LayerFS.copyFile s p
  | moveFile s p => LayerFS.moveFile s p
  | moveDir frames s p => LayerFS.moveDir frames s p

end Op

/-- The lower layers show no entry of `p` that the upper layer leaves to them. -/
def LowerSilent (fs : Stack) (p : Path) : Prop :=
  ∀ n, Unmarked (p ++ [n]) → fs.upper.verdict (p ++ [n]) = none →
    lowerView fs.lower (p ++ [n]) = none

/-- The condition on the state before an operation. Every path is a client's; no
directory above a path that is created or removed is whited out in the upper
layer; the lower layers show nothing in a path that becomes a file or goes away. -/
def Op.Safe (fs : Stack) : Op → Prop
  | .createFile p _ | .copyFile _ p | .removeFile p | .removeDir p =>
    PlainPath p ∧ OpenAbove fs p ∧ LowerSilent fs p
  | .createDir p => PlainPath p ∧ OpenAbove fs p
  | .appendFile p _ => PlainPath p
  | .moveFile s p =>
    (PlainPath s ∧ OpenAbove fs s ∧ LowerSilent fs s) ∧
      PlainPath p ∧ OpenAbove fs p ∧ LowerSilent fs p
  | .moveDir _ s p =>
    (PlainPath s ∧ s ≠ [] ∧ (∀ q, q <+: s → fs.upper.hides q = false) ∧ Bare fs s) ∧
      PlainPath p ∧ p ≠ [] ∧ OpenAbove fs p ∧ ∀ r, LowerSilent fs (p ++ r)

theorem LowerSilent.view_eq_none (h : LowerSilent fs p) (hn : Unmarked (p ++ [n]))
    (hnone : fs.upper.get? (p ++ [n]) = none) : view fs (p ++ [n]) = none := by
  cases hverdict : fs.upper.verdict (p ++ [n]) with
  | none => rw [view_eq, hverdict, Option.getD_none, h n hn hverdict]
  | some o =>
    cases o with
    | none => rw [view_eq, hverdict, Option.getD_some]
    | some node =>
      rw [(Tree.verdict_eq_some.mp hverdict).1] at hnone
      cases hnone

theorem LowerSilent.covered (h : LowerSilent fs p) : Covered fs p :=
  fun _ hn hnone => h.view_eq_none hn hnone

theorem Ready.of_safe (htree : IsTree fs) (h : PlainPath p ∧ OpenAbove fs p ∧ LowerSilent fs p) :
    Ready fs p ∧ Unmarked p :=
  ⟨⟨htree, h.2.1, h.2.2.covered⟩, h.1.unmarked⟩

theorem thenWrite_createFile_ready (hp : Unmarked p) (w : Bytes) :
    Triple (Ready · p) (thenWrite (LayerFS.createFile p) w) (fun _ => IsTree) IsTree := by
  have hI : ∀ fs fs', Ready fs p → Puts p fs fs' → Ready fs' p := fun _ _ h => h.puts hp
  exact (Triple.bind (createFile_keeps hI) fun writer => writeAll_keeps hI writer w).weaken
    (fun _ h => h) (fun _ _ h => h.tree) (fun _ h => h.tree)

theorem copyFile_ready (hp : Unmarked p) (s : Path) :
    Triple (Ready · p) (LayerFS.copyFile s p) (fun _ => IsTree) IsTree :=
  (copyFile_keeps (fun _ _ h => Ready.puts h hp) s).weaken (fun _ h => h) (fun _ _ h => h.tree)
    (fun _ h => h.tree)

theorem removeFile_ready (hp : Unmarked p) :
    Triple (Ready · p) (LayerFS.removeFile p) (fun _ => IsTree) IsTree :=
  (removeFile_keeps fun _ _ h => Ready.cuts h hp).weaken (fun _ h => h) (fun _ _ h => h.tree)
    (fun _ h => h.tree)

theorem removeDir_ready (hp : Unmarked p) :
    Triple (Ready · p) (LayerFS.removeDir p) (fun _ => IsTree) IsTree :=
  (removeDir_keeps fun _ _ h => Ready.cuts h hp).weaken (fun _ h => h) (fun _ _ h => h.tree)
    (fun _ h => h.tree)

/-- A tree in which nothing above `p` is whited out, when directories are made. -/
theorem keptByMkdir_tree (hp : Unmarked p) :
    KeptByMkdir (fun fs => IsTree fs ∧ OpenAbove fs p) p := by
  rintro fs fs' q ⟨htree, hopen⟩ hq hne hnone hparent h
  exact ⟨htree.mkdir (hp.of_isPrefix hq) hopen hq hparent h,
    (Puts.mkdir q hq hne hnone hparent h).openAbove hp hopen⟩

theorem createDir_tree (hp : Unmarked p) :
    Triple (fun fs => IsTree fs ∧ OpenAbove fs p) (LayerFS.createDir p) (fun _ => IsTree)
      IsTree := by
  refine (createDir_keeps (keptByMkdir_tree hp) ?_).weaken (fun _ h => h) (fun _ _ h => h.1)
    (fun _ h => h.1)
  rintro fs fs' ⟨htree, hopen⟩ hmark h
  exact ⟨htree.unmark hp hopen hmark h, (Puts.unmark hmark h).openAbove hp hopen⟩

/-! ### Appending -/

/-- New contents for a file of the upper layer show nowhere else. -/
theorem IsTree.rewrite (h : IsTree fs) (hp : Unmarked p) {c c' : Bytes}
    (hfile : fs.upper.get? p = some (.file c)) (hupd : Upd fs fs' p (some (.file c'))) :
    IsTree fs' := by
  have hview : fs.upper.hides p = false → view fs p = some (.file c) :=
    fun hhides => view_of_upper hhides hfile
  refine h.of_single (fun _ _ hqp => hupd.view_entry hp hqp) (fun hne hshown => ?_)
    (Or.inr fun n hn => h.view_child hn ?_)
  · refine h p hp hne ?_
    rw [hview]
    · simp
    · rw [← hupd.hides_entry hp, Bool.eq_false_iff]
      exact fun hhides => hshown (view_of_hides hhides)
  · cases hhides : fs.upper.hides p with
    | true => simp [view_of_hides hhides]
    | false => simp [hview hhides]

section Append

variable {I : Stack → Prop} (hI : ∀ fs fs' (c c' : Bytes), I fs →
  fs.upper.get? p = some (.file c) → Upd fs fs' p (some (.file c')) → I fs')
include hI

/-- Appending to a file that is in the upper layer. -/
theorem appendUpper_keeps (w : Bytes) :
    Triple I (thenWrite (onUpper (FileSystem.appendFile p)) w) (fun _ => I) I := by
  refine Triple.bind (R := fun writer fs => I fs ∧ writer.path = p) ?_ fun writer => ?_
  · refine onUpper_rule fun lower => Triple.of_forall fun u hu => ?_
    refine (Tree.appendFile_spec u p).weaken (fun _ h => h) ?_ ?_
    · rintro writer _ ⟨rfl, c, -, rfl⟩
      exact ⟨hu, rfl⟩
    · rintro _ rfl
      exact hu
  · refine onUpper_rule fun lower => Triple.of_forall fun u ⟨hu, hpath⟩ => ?_
    refine (Tree.writeAll_spec u writer w).weaken (fun _ h => h) ?_ ?_
    · rintro _ u' ⟨c, hc, hget⟩
      rw [hpath] at hc hget
      exact hI ⟨u, lower⟩ ⟨u', lower⟩ c _ hu hc ⟨rfl, hget⟩
    · rintro _ rfl
      exact hu

/-- Appending keeps what copying up and writing keep. -/
theorem thenWrite_appendFile_keeps (w : Bytes) (hfs : I fs)
    (hcopy : fs.upper.get? p = none → ∀ node, view fs p = some node →
      Triple (· = fs) (copyUp p) (fun _ => I) I) :
    Triple (· = fs) (thenWrite (LayerFS.appendFile p) w) (fun _ => I) I := by
  intro fs₀ hfs₀
  subst hfs₀
  change Ends ((LayerFS.appendFile p >>= fun writer => FileSystem.writeAll writer w).run fs₀) _ _
  rw [EStateM.run_bind, run_appendFile]
  cases hupper : fs₀.upper.get? p with
  | some node =>
    rw [if_pos (by simp), ← EStateM.run_bind]
    exact appendUpper_keeps hI w fs₀ hfs
  | none =>
    rw [if_neg (by simp)]
    cases hview : view fs₀ p with
    | none => exact hfs
    | some node =>
      rw [if_pos (by simp), ← EStateM.run_bind, bind_assoc]
      exact Triple.bind (hcopy hupper node hview) (fun _ => appendUpper_keeps hI w) fs₀ rfl

end Append

theorem thenWrite_appendFile_tree (hp : Unmarked p) (w : Bytes) :
    Triple IsTree (thenWrite (LayerFS.appendFile p) w) (fun _ => IsTree) IsTree := by
  refine Triple.of_forall fun fs htree => ?_
  refine thenWrite_appendFile_keeps (fun _ _ _ _ h hfile hupd => h.rewrite hp hfile hupd) w htree
    fun hupper node hview => ?_
  have hne : p ≠ [] := ne_nil_of_get?_eq_none hupper
  cases node with
  | file c =>
    have hready := Ready.of_view htree hp (by simp [hview]) hne (by simp [hview])
    exact (copyUp_keeps (fun _ _ h => Ready.puts h hp) hready hupper hview).weaken
      (fun _ h => h) (fun _ _ h => h.tree) (fun _ h => h.tree)
  | dir =>
    have hopen : OpenAbove fs p := fun q hq =>
      hides_of_view (htree.of_isPrefix hp (by simp [hview]) (hq.trans (List.dropLast_prefix p))
        (ne_of_prefix_dropLast hne hq))
    exact (copyUp_dir_keeps (keptByMkdir_tree hp) ⟨htree, hopen⟩ hupper hview).weaken
      (fun _ h => h) (fun _ _ h => h.1) (fun _ h => h.1)

/-! ### Moving -/

/-- Copying to `p` leaves `s` ready to be removed. -/
theorem copyFile_source_ready (hp : Unmarked p) (hs : Unmarked s) (hready : Ready fs p)
    (hsource : Ready fs s) :
    Triple (· = fs) (LayerFS.copyFile s p) (fun _ fs' => Ready fs' s) IsTree := by
  have hI : ∀ fs fs', (Ready fs p ∧ OpenAbove fs s ∧ ∀ n, Unmarked (s ++ [n]) → s ++ [n] ≠ p →
      fs.upper.get? (s ++ [n]) = none → view fs (s ++ [n]) = none) → Puts p fs fs' →
      Ready fs' p ∧ OpenAbove fs' s ∧ ∀ n, Unmarked (s ++ [n]) → s ++ [n] ≠ p →
      fs'.upper.get? (s ++ [n]) = none → view fs' (s ++ [n]) = none := by
    rintro fs fs' ⟨hready, hopen, hcovered⟩ hputs
    refine ⟨hready.puts hp hputs, fun q hq => ?_, fun n hn hne hnone => ?_⟩
    · have hfalse := hopen q hq
      rw [Bool.eq_false_iff] at hfalse ⊢
      exact fun htrue => hfalse (hputs.hides hp (hs.dropLast.of_isPrefix hq) htrue)
    · obtain ⟨hview, hnone'⟩ := hputs.view_of_get?_eq_none hp hn hne hnone
      rw [hview]
      exact hcovered n hn hne hnone'
  refine ((copyFile_keeps hI s).and (copyFile_spec fs s p)).weaken ?_ ?_ (fun _ h => h.1.1.tree)
  · rintro _ rfl
    exact ⟨⟨hready, hsource.openAbove, fun n hn _ hnone => hsource.covered n hn hnone⟩, rfl⟩
  · rintro _ fs' ⟨⟨hready', hopen, hcovered⟩, c, -, hplaced⟩
    refine ⟨hready'.tree, hopen, fun n hn hnone => hcovered n hn ?_ hnone⟩
    rintro rfl
    rw [hplaced.entry] at hnone
    cases hnone

theorem moveFile_ready (hp : Unmarked p) (hs : Unmarked s) (hready : Ready fs p)
    (hsource : Ready fs s) :
    Triple (· = fs) (LayerFS.moveFile s p) (fun _ => IsTree) IsTree :=
  Triple.bind (copyFile_source_ready hp hs hready hsource) fun _ => removeFile_ready hs

theorem moveDir_tree (frames : Nat) (htree : IsTree fs) (hsafe : (Op.moveDir frames s p).Safe fs) :
    Triple (· = fs) (LayerFS.moveDir frames s p) (fun _ => IsTree) IsTree := by
  obtain ⟨⟨hs, hsne, hopenTo, hbare⟩, hp, hpne, hopen, hsilent⟩ := hsafe
  -- to begin with, what shows below the target is in the upper layer
  have hstart : Filling fs p p.dropLast (· = p) fs := by
    refine ⟨htree, rfl, fun _ _ h => h, fun _ => rfl, ?_, hopen⟩
    rintro x hx ⟨r, rfl⟩ hne - hnone
    obtain ⟨r, n, rfl⟩ := (List.eq_nil_or_concat' r).resolve_left fun hr => hne (by simp [hr])
    rw [← List.append_assoc] at hx hnone ⊢
    exact (hsilent r).view_eq_none hx hnone
  have hcopy : Triple (· = fs) (copyDirRecursive frames s p)
      (fun _ => Filling fs p p (fun _ => False)) IsTree :=
    (copyDirRecursive_filling frames s p (List.prefix_refl p) hp.unmarked hpne).weaken
      (fun _ h => h ▸ hstart) (fun _ _ h => h) (fun _ h => h)
  refine Triple.bind hcopy fun _ =>
    (removeDirRecursive_clearing frames s (List.prefix_refl s) hs.unmarked hsne).weaken
      ?_ (fun _ _ h => h.tree) (fun _ h => h)
  intro fs₁ h
  refine ⟨h.tree, hbare.of_agree h.lower fun q _ => h.opaques q, fun q hq => ?_⟩
  have hfalse := hopenTo q hq
  rw [Bool.eq_false_iff] at hfalse ⊢
  exact fun htrue => hfalse (h.hides q (hs.unmarked.of_isPrefix hq) htrue)

/-! ### Runs -/

/-- A safe operation keeps the view a tree, whether it returns or fails. -/
theorem Op.keeps_isTree (op : Op) (hsafe : op.Safe fs) (htree : IsTree fs) :
    Triple (· = fs) op.exec (fun _ => IsTree) IsTree := by
  -- each case starts from what the operation's own condition gives
  have hstart : ∀ {P : Stack → Prop}, P fs → ∀ fs', fs' = fs → P fs' := by
    rintro P hfs _ rfl
    exact hfs
  cases op with
  | createFile p w =>
    obtain ⟨hready, hp⟩ := Ready.of_safe htree hsafe
    exact (thenWrite_createFile_ready hp w).weaken (hstart hready) (fun _ _ h => h) fun _ h => h
  | createDir p =>
    exact (createDir_tree hsafe.1.unmarked).weaken (hstart ⟨htree, hsafe.2⟩) (fun _ _ h => h)
      fun _ h => h
  | appendFile p w =>
    exact (thenWrite_appendFile_tree (PlainPath.unmarked hsafe) w).weaken (hstart htree)
      (fun _ _ h => h) fun _ h => h
  | removeFile p =>
    obtain ⟨hready, hp⟩ := Ready.of_safe htree hsafe
    exact (removeFile_ready hp).weaken (hstart hready) (fun _ _ h => h) fun _ h => h
  | removeDir p =>
    obtain ⟨hready, hp⟩ := Ready.of_safe htree hsafe
    exact (removeDir_ready hp).weaken (hstart hready) (fun _ _ h => h) fun _ h => h
  | copyFile s p =>
    obtain ⟨hready, hp⟩ := Ready.of_safe htree hsafe
    exact (copyFile_ready hp s).weaken (hstart hready) (fun _ _ h => h) fun _ h => h
  | moveFile s p =>
    obtain ⟨hsource, hs⟩ := Ready.of_safe htree hsafe.1
    obtain ⟨hready, hp⟩ := Ready.of_safe htree hsafe.2
    exact moveFile_ready hp hs hready hsource
  | moveDir frames s p => exact moveDir_tree frames htree hsafe

/-- The state after a list of operations, failed ones included. -/
def runOps (fs : Stack) (ops : List Op) : Stack :=
  ops.foldl (fun fs op => finalState op.exec fs) fs

/-- Every operation is safe in the state it runs in. -/
def SafeRun : Stack → List Op → Prop :=
  EachStep (fun fs op => finalState op.exec fs) fun fs op => op.Safe fs

theorem isTree_runOps {ops : List Op} (htree : IsTree fs) (hsafe : SafeRun fs ops) :
    IsTree (runOps fs ops) :=
  EachStep.invariant hsafe (fun _ op htree hsafe => (op.keeps_isTree hsafe htree).finalState rfl)
    htree

/-- Over layers that show a tree, a run of safe operations leaves a merged view in
which every proper ancestor of an existing path exists and is a directory. -/
theorem ancestors_visible_of_run (fs : Stack) (ops : List Op) (hintact : Intact fs)
    (hsafe : SafeRun fs ops) (p : Path) (hp : PlainPath p)
    (hexists : LayerFS.existsAt p (runOps fs ops) = .ok true) (q : Path) (hqp : q <+: p)
    (hne : q ≠ p) :
    LayerFS.existsAt q (runOps fs ops) = .ok true ∧
      ∃ len, LayerFS.metadata q (runOps fs ops) = .ok ⟨.directory, len⟩ := by
  have htree := isTree_runOps (isTree_iff_intact.mpr hintact) hsafe
  have hview : view (runOps fs ops) p ≠ none := by
    rw [LayerFS.existsAt_eq, Except.ok.injEq] at hexists
    exact Option.isSome_iff_ne_none.mp hexists
  have hdir := htree.of_isPrefix hp.unmarked hview hqp hne
  rw [LayerFS.existsAt_eq, LayerFS.metadata_eq, hdir]
  exact ⟨rfl, 0, rfl⟩

/-- A file of the image is removed, which leaves a whiteout, and another made beside it. -/
def hostsRun : List Op :=
  [.removeFile ["etc".toList, "hosts".toList], .createFile ["etc".toList, "motd".toList] [2]]

theorem safeRun_hostsRun : SafeRun hostsStack hostsRun := by
  have hopen : ∀ (fs : Stack) (n : Name),
      (∀ q ∈ ["etc".toList].inits, fs.upper.hides q = false) → OpenAbove fs ["etc".toList, n] :=
    fun _ _ hall q hq => hall q ((List.mem_inits q _).mpr hq)
  have hsilent : ∀ (fs : Stack) (p : Path), fs.lower = hostsStack.lower →
      (∀ t ∈ hostsStack.lower, t.children p = []) → LowerSilent fs p := by
    intro fs p hlower hchildren n _ _
    refine lowerView_of_forall_none fun t ht => ?_
    rw [hlower] at ht
    by_contra hsome
    have hmem := PathMap.mem_children.mpr (Option.isSome_iff_ne_none.mpr hsome)
    rw [hchildren t ht] at hmem
    exact List.not_mem_nil hmem
  exact ⟨⟨by decide, hopen _ _ (by decide), hsilent _ _ rfl (by decide)⟩,
    ⟨by decide, hopen _ _ (by decide), hsilent _ _ rfl (by decide)⟩, trivial⟩

theorem ancestors_visible_of_run_hosts :
    (runOps hostsStack hostsRun).upper.hides ["etc".toList, "hosts".toList] = true ∧
    LayerFS.existsAt ["etc".toList, "motd".toList] (runOps hostsStack hostsRun) = .ok true ∧
    ∃ len, LayerFS.metadata ["etc".toList] (runOps hostsStack hostsRun) =
      .ok ⟨.directory, len⟩ := by
  have hintact : Intact hostsStack := isTree_iff_intact.mp (isTree_single (by decide))
  have hexists : LayerFS.existsAt ["etc".toList, "motd".toList] (runOps hostsStack hostsRun) =
      .ok true := by decide
  exact ⟨by decide, hexists, (ancestors_visible_of_run _ _ hintact safeRun_hostsRun _ (by decide)
    hexists ["etc".toList] (by decide) (by decide)).2⟩

/-- Removing a directory of an image layer leaves its contents visible without it. -/
theorem not_ancestors_visible_hosts :
    ¬ ∀ (fs : Stack) (ops : List Op) (p : Path), PlainPath p →
      LayerFS.existsAt p (runOps fs ops) = .ok true → ∀ q, q <+: p → q ≠ p →
      LayerFS.existsAt q (runOps fs ops) = .ok true ∧
        ∃ len, LayerFS.metadata q (runOps fs ops) = .ok ⟨.directory, len⟩ := by
  intro h
  have := (h hostsStack [.removeDir ["etc".toList]] ["etc".toList, "hosts".toList] (by decide)
    (by decide) ["etc".toList] (by decide) (by decide)).1
  revert this
  decide

end Rspacefs
