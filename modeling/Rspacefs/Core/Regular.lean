import Rspacefs.Core.ListingOrder
import Rspacefs.Core.MoveDir
import Rspacefs.Core.Plain
import Rspacefs.Core.PushDown

/-!
# Regular overlays

What an overlay keeps while its clients do only what a plain filesystem allows: they see a tree,
the upper layer holds nothing beside its whiteout, and every whiteout in it is there for something
that a lower layer has. In such a state nothing in the upper layer is in the way of an operation
that the client's tree allows.

## Main definitions

* `plainView` — the tree that a client sees
* `Marks` — every marker of the upper layer is needed
* `Regular` — the invariant

## Main results

* `removeFile_marks`, `removeDirRecursive_marks`, … — the methods leave no marker that is not needed
* `Regular.shown_of_upper`, `Regular.not_shut` — what the upper layer has is shown, and it can take
  an entry wherever a directory is shown
-/

namespace Rspacefs

open Lib LayerFS

variable {fs fs' fs₁ : Stack} {p q s : Path} {n m : Name} {c w : Bytes} {F F' : Plain} {node : Node}

/-- The tree that a client sees. -/
def plainView (fs : Stack) : Plain := fun p => if Unmarked p then view fs p else none

theorem plainView_of_unmarked (hp : Unmarked p) : plainView fs p = view fs p := if_pos hp

theorem unmarked_of_plainView (h : plainView fs p ≠ none) : Unmarked p := by
  by_contra hp
  exact h (if_neg hp)

theorem view_of_plainView (h : plainView fs p = some node) : view fs p = some node := by
  have hp : Unmarked p := unmarked_of_plainView (by rw [h]; exact Option.some_ne_none node)
  rw [← h, plainView_of_unmarked hp]

/-- A change that shows at one path. -/
theorem plainView_eq_update {v : Option Node} (hp : Unmarked p) (hat : view fs' p = v)
    (helse : ∀ q, Unmarked q → q ≠ p → view fs' q = view fs q) :
    plainView fs' = Function.update (plainView fs) p v := by
  funext q
  by_cases hq : Unmarked q
  · rw [plainView_of_unmarked hq]
    by_cases hqp : q = p
    · rw [hqp, hat, Function.update_self]
    · rw [helse q hq hqp, Function.update_of_ne hqp, plainView_of_unmarked hq]
  · have hqp : q ≠ p := by
      rintro rfl
      exact hq hp
    rw [Function.update_of_ne hqp, plainView, plainView, if_neg hq, if_neg hq]

theorem wf_plainView_iff : (plainView fs).Wf ↔ view fs [] = some .dir ∧ IsTree fs := by
  have hroot : plainView fs [] = view fs [] := plainView_of_unmarked (by decide)
  constructor
  · intro h
    refine ⟨hroot.symm.trans h.root, fun p hp hne hview => ?_⟩
    obtain ⟨d, n, rfl⟩ := (List.eq_nil_or_concat' p).resolve_left hne
    rw [← plainView_of_unmarked hp] at hview
    rw [List.dropLast_concat]
    exact view_of_plainView (h.parent d n hview)
  · rintro ⟨hview, htree⟩
    refine ⟨hroot.trans hview, fun p n hpn => ?_⟩
    have hn := unmarked_of_plainView hpn
    rw [plainView_of_unmarked hn] at hpn
    rw [plainView_of_unmarked (hn.of_isPrefix (List.prefix_append p [n])),
      ← htree _ hn (by simp) hpn,
      List.dropLast_concat]

/-! ### The invariant -/

/-- Some lower layer has the path. -/
def InLower (lower : List Tree) (p : Path) : Prop := ∃ t ∈ lower, t.get? p ≠ none

theorem existsInLower_iff : existsInLower p fs = true ↔ InLower fs.lower p := by
  rw [← Bool.not_eq_false, existsInLower_eq_false, InLower]
  push Not
  rfl

/-- Every marker of the upper layer is a file that whites out what a lower layer has. -/
def Marks (fs : Stack) : Prop :=
  ∀ d m node, IsMarker m → fs.upper.get? (d ++ [m]) = some node → (∃ c, node = .file c) ∧
    ∃ x, m = whiteoutPrefix ++ x ∧ PlainName x ∧ InLower fs.lower (d ++ [x])

/-- The client sees a tree, and the upper layer has no marker that is not needed. -/
structure Regular (fs : Stack) : Prop where
  wf : (plainView fs).Wf
  noPair : NoPair fs.upper
  marks : Marks fs

namespace Marks

/-- A change that stores no marker. -/
theorem upd {x : Option Node} (h : Marks fs) (hupd : Upd fs fs' q x)
    (hx : x = none ∨ NoMarker q) : Marks fs' := by
  intro d m node hm hget
  by_cases hq : d ++ [m] = q
  · rw [hq, hupd.get?_self] at hget
    rcases hx with rfl | hq'
    · cases hget
    · exact absurd hm (hq' m (by simp [← hq]))
  · rw [hupd.get?_of_ne hq] at hget
    exact hupd.lower ▸ h d m node hm hget

theorem puts (h : Marks fs) (hp : NoMarker p) (hputs : Puts p fs fs') : Marks fs' := by
  cases hputs with
  | mkdir q hq _ _ _ hupd => exact h.upd hupd (Or.inr (hp.of_isPrefix hq))
  | unmark _ hupd => exact h.upd hupd (Or.inl rfl)
  | write _ _ _ _ hupd => exact h.upd hupd (Or.inr hp)

theorem cuts (h : Marks fs) (hp : PlainPath p) (hlower : InLower fs.lower p)
    (hcuts : Cuts p fs fs') : Marks fs' := by
  cases hcuts with
  | mkdir q hq _ _ _ hupd =>
    exact h.upd hupd (Or.inr (hp.noMarker.dropLast.of_isPrefix hq))
  | drop _ _ _ hupd => exact h.upd hupd (Or.inl rfl)
  | mark hne _ _ hupd =>
    obtain ⟨e, x, rfl⟩ := (List.eq_nil_or_concat' p).resolve_left hne
    intro d m node hm hget
    by_cases hq : d ++ [m] = whiteoutPath (e ++ [x])
    · rw [hq, hupd.get?_self] at hget
      rw [whiteoutPath_concat] at hq
      obtain ⟨rfl, hname⟩ := List.append_inj' hq rfl
      refine ⟨⟨[], (Option.some.inj hget).symm⟩, x, by simpa using hname, hp x (by simp), ?_⟩
      exact hupd.lower ▸ hlower
    · rw [hupd.get?_of_ne hq] at hget
      exact hupd.lower ▸ h d m node hm hget

/-- No directory has the name of a marker. -/
theorem ne_dir (h : Marks fs) (hm : IsMarker m) : fs.upper.get? (q ++ [m]) ≠ some .dir := by
  intro hdir
  obtain ⟨⟨c, hc⟩, -⟩ := h q m .dir hm hdir
  cases hc

theorem whiteoutPath_ne_dir (h : Marks fs) (p : Path) :
    fs.upper.get? (whiteoutPath p) ≠ some .dir :=
  h.ne_dir (isMarker_whiteoutPrefix_append _)

/-- No marker is whited out. -/
theorem not_hides_whiteoutPath (h : Marks fs) (p : Path) :
    fs.upper.hides (whiteoutPath p) = false := by
  have hmarker : whiteoutPath (whiteoutPath p) =
      (splitPath p).1 ++ [whiteoutPrefix ++ (whiteoutPrefix ++ (splitPath p).2)] := by
    rw [whiteoutPath.eq_def p, whiteoutPath_concat]
  rw [Tree.hides_eq_false, hmarker]
  by_contra hne
  obtain ⟨node, hnode⟩ := Option.ne_none_iff_exists'.mp hne
  obtain ⟨-, x, hx, hplain, -⟩ := h _ _ _ (isMarker_whiteoutPrefix_append _) hnode
  rw [List.append_cancel_left_eq] at hx
  exact hplain.2 (hx ▸ isMarker_whiteoutPrefix_append _)

theorem opaquePath_eq_none (h : Marks fs) (d : Path) : fs.upper.get? (opaquePath d) = none := by
  by_contra hne
  obtain ⟨node, hnode⟩ := Option.ne_none_iff_exists'.mp hne
  obtain ⟨-, x, hx, hplain, -⟩ := h _ _ _ isMarker_opaqueWhiteout hnode
  exact whiteout_ne_opaqueWhiteout hplain.2 hx.symm

end Marks

/-! ### What the methods do to the markers -/

section Methods

variable {L : List Tree}

/-- The markers over given lower layers. -/
def MarksOver (L : List Tree) (fs : Stack) : Prop := Marks fs ∧ fs.lower = L

theorem MarksOver.upd {x : Option Node} (h : MarksOver L fs) (hupd : Upd fs fs' q x)
    (hx : x = none ∨ NoMarker q) : MarksOver L fs' :=
  ⟨h.1.upd hupd hx, hupd.lower.trans h.2⟩

theorem MarksOver.puts (h : MarksOver L fs) (hp : NoMarker p) (hputs : Puts p fs fs') :
    MarksOver L fs' :=
  ⟨h.1.puts hp hputs, hputs.lower.trans h.2⟩

/-- Both removals: a whiteout is made only for what a lower layer has. -/
theorem remove_marks {x : VfsM Stack Unit} (hp : InLower L p → PlainPath p)
    (hbare : Triple (fun fs => MarksOver L fs ∧ existsInLower p fs = false) x
      (fun _ => MarksOver L) (MarksOver L))
    (hkeeps : ∀ I : Stack → Prop, (∀ fs fs', I fs → Cuts p fs fs' → I fs') →
      Triple I x (fun _ => I) I) : Triple (MarksOver L) x (fun _ => MarksOver L) (MarksOver L) := by
  by_cases hlower : InLower L p
  · refine hkeeps (MarksOver L) fun fs fs' h hcuts => ⟨h.1.cuts (hp hlower) ?_ hcuts, ?_⟩
    · rwa [h.2]
    · exact hcuts.lower.trans h.2
  · refine hbare.weaken (fun fs h => ⟨h, ?_⟩) (fun _ _ h => h) fun _ h => h
    rw [Bool.eq_false_iff, Ne, existsInLower_iff, h.2]
    exact hlower

theorem removeFile_marks (hp : InLower L p → PlainPath p) :
    Triple (MarksOver L) (LayerFS.removeFile p) (fun _ => MarksOver L) (MarksOver L) := by
  refine remove_marks hp ?_ fun I hI => removeFile_keeps hI
  exact removeWith_bare (fun _ _ h hupd => h.upd hupd (Or.inl rfl)) fun u =>
    (Tree.removeFile_spec u p).weaken (fun _ h => h) (fun _ _ h => h.2) fun _ h => h

theorem removeDir_marks (hp : InLower L p → PlainPath p) :
    Triple (MarksOver L) (LayerFS.removeDir p) (fun _ => MarksOver L) (MarksOver L) := by
  refine remove_marks hp ?_ fun I hI => removeDir_keeps hI
  exact removeWith_bare (fun _ _ h hupd => h.upd hupd (Or.inl rfl)) fun u =>
    (Tree.removeDir_spec u p).weaken (fun _ h => h) (fun _ _ h => h.2.2.2) fun _ h => h

/-- A directory that is removed with what is in it, where the lower layers have nothing below. -/
theorem removeDirRecursive_marks (frames : Nat) (hs : PlainPath s)
    (hbelow : ∀ r, r ≠ [] → NoMarker r → ¬ InLower L (s ++ r)) :
    Triple (MarksOver L) (removeDirRecursive frames s) (fun _ => MarksOver L) (MarksOver L) := by
  -- no lower layer has anything below `s`, so a whiteout is made for `s` at most
  have hplain : ∀ r, NoMarker r → InLower L (s ++ r) → PlainPath (s ++ r) := by
    intro r hr hlower
    by_cases hnil : r = []
    · rwa [hnil, List.append_nil]
    · exact absurd hlower (hbelow r hnil hr)
  have hlevels : RemoveLevels (fun q => ∃ r, NoMarker r ∧ q = s ++ r) (fun _ => MarksOver L)
      (fun _ => MarksOver L) (fun _ => MarksOver L) (MarksOver L) := by
    constructor
    case down =>
      rintro _ n ⟨r, hr, rfl⟩ hn
      exact ⟨r ++ [n], hr.concat hn, by simp⟩
    case before => exact fun _ _ _ h => h
    case list => exact fun _ _ _ _ h _ => h
    case enter => exact fun _ _ _ _ _ _ h => h
    case file =>
      rintro _ n c ⟨r, hr, rfl⟩ hn
      rw [List.append_assoc]
      exact (removeFile_marks (hplain (r ++ [n]) (hr.concat hn))).weaken (fun _ h => h.1)
        (fun _ _ h => h) fun _ h => h
    case markers =>
      rintro _ -
      exact removeMarkers_keeps fun _ _ _ _ h _ _ hupd => h.upd hupd (Or.inl rfl)
    case dir =>
      rintro _ ⟨r, hr, rfl⟩
      exact removeDir_marks (hplain r hr)
  exact hlevels.triple frames s ⟨[], by simp [NoMarker], by simp⟩

theorem thenWrite_createFile_marks (hp : NoMarker p) (w : Bytes) :
    Triple (MarksOver L) (thenWrite (LayerFS.createFile p) w) (fun _ => MarksOver L)
      (MarksOver L) := by
  have hI : ∀ fs fs', MarksOver L fs → Puts p fs fs' → MarksOver L fs' := fun _ _ h => h.puts hp
  exact Triple.bind (createFile_keeps hI) fun writer => writeAll_keeps hI writer w

theorem createDir_marks (hp : NoMarker p) :
    Triple (MarksOver L) (LayerFS.createDir p) (fun _ => MarksOver L) (MarksOver L) := by
  have hI : ∀ fs fs', MarksOver L fs → Puts p fs fs' → MarksOver L fs' := fun _ _ h => h.puts hp
  exact createDir_keeps (keptByMkdir_of_puts hI) (keptByUnmark_of_puts hI)

theorem copyFile_marks (hp : NoMarker p) (s : Path) :
    Triple (MarksOver L) (LayerFS.copyFile s p) (fun _ => MarksOver L) (MarksOver L) :=
  copyFile_keeps (fun _ _ h => MarksOver.puts h hp) s

theorem thenWrite_appendFile_marks (hp : NoMarker p) (w : Bytes) (hfs : MarksOver L fs)
    (hview : view fs p = some (.file c)) :
    Triple (· = fs) (thenWrite (LayerFS.appendFile p) w) (fun _ => MarksOver L)
      (MarksOver L) := by
  refine thenWrite_appendFile_keeps (fun _ _ _ _ h _ hupd => h.upd hupd (Or.inr hp)) w hfs ?_
  intro hupper node hnode
  obtain rfl := Option.some.inj (hview.symm.trans hnode)
  exact copyUp_keeps (fun _ _ h => MarksOver.puts h hp) hfs hupper hview

end Methods

/-! ### What is known in a regular state -/

namespace Regular

variable (h : Regular fs)
include h

theorem tree : IsTree fs := (wf_plainView_iff.mp h.wf).2

/-- What the upper layer has is shown. -/
theorem plainView_of_upper (hp : Unmarked p) (hentry : fs.upper.get? p = some node) :
    plainView fs p = some node := by
  by_cases hne : p = []
  · subst hne
    rw [h.wf.root, ← hentry, Tree.get?_root]
  · rw [plainView_of_unmarked hp]
    exact view_of_upper (h.noPair p hne (by simp [hentry])) hentry

theorem upper_eq_none (hp : Unmarked p) (hnone : plainView fs p = none) :
    fs.upper.get? p = none := by
  by_contra hentry
  obtain ⟨node, hnode⟩ := Option.ne_none_iff_exists'.mp hentry
  rw [h.plainView_of_upper hp hnode] at hnone
  cases hnone

theorem upper_ne_dir (hp : Unmarked p) (hdir : plainView fs p ≠ some .dir) :
    fs.upper.get? p ≠ some .dir :=
  fun hentry => hdir (h.plainView_of_upper hp hentry)

theorem ancestorsVisible (hparent : plainView fs p.dropLast = some .dir) :
    AncestorsVisible fs p := by
  intro q hq hne
  have hpre := prefix_dropLast_of_ne hq hne
  apply view_of_plainView
  by_cases hlast : q = p.dropLast
  · rw [hlast, hparent]
  · exact h.wf.dir_above hpre hlast (by simp [hparent])

theorem not_blocked (hvisible : AncestorsVisible fs p) (hp : Unmarked p) (hne : p ≠ []) :
    ¬ Blocked fs p := by
  rintro ⟨q, c, hq, hfile⟩
  have hview := hvisible q (hq.trans (List.dropLast_prefix p)) (ne_of_prefix_dropLast hne hq)
  have hunmarked := hp.dropLast.of_isPrefix hq
  have hshown := h.plainView_of_upper hunmarked hfile
  rw [plainView_of_unmarked hunmarked, hview] at hshown
  cases hshown

theorem not_shut (hvisible : AncestorsVisible fs p) (hp : Unmarked p) (hne : p ≠ []) :
    ¬ Shut fs p := by
  rintro (hblocked | hdir)
  · exact h.not_blocked hvisible hp hne hblocked
  · exact h.marks.whiteoutPath_ne_dir p hdir

/-- Where something is shown, the directories above are. -/
theorem ancestorsVisible_of_plainView (hp : plainView fs p ≠ none) : AncestorsVisible fs p := by
  intro q hq hne
  exact view_of_plainView (h.wf.dir_above hq hne hp)

end Regular

theorem AncestorsVisible.clear (h : AncestorsVisible fs p) (hne : p ≠ []) :
    AncestorsClear fs p := by
  intro q hq _
  exact hides_of_view (h q (hq.trans (List.dropLast_prefix p)) (ne_of_prefix_dropLast hne hq))

theorem Regular.markTidy (h : Regular fs) (hvisible : AncestorsVisible fs p) (hne : p ≠ []) :
    MarkTidy fs p :=
  Or.inr ⟨hvisible.clear hne, h.marks.not_hides_whiteoutPath p⟩

theorem Placed.plainView_eq (h : Placed fs fs' p node) (hp : Unmarked p)
    (hvisible : AncestorsVisible fs p) :
    plainView fs' = Function.update (plainView fs) p (some node) :=
  plainView_eq_update hp (view_of_upper (Tree.hides_eq_false.mpr h.marker) h.entry) fun _ hq hqp =>
    view_of_touched h.lower h.touched hp hvisible hq hqp

theorem Removed.plainView_eq (h : Removed fs fs' p) (hp : Unmarked p)
    (hvisible : AncestorsVisible fs p) : plainView fs' = Function.update (plainView fs) p none :=
  plainView_eq_update hp h.view_eq_none fun _ hq hqp =>
    view_of_touched h.lower h.touched hp hvisible hq hqp

end Rspacefs
