import Rspacefs.Core.Succeed
import Rspacefs.Core.TreeRun

/-!
# An entry and its whiteout

A name of the upper layer is either there or whited out, and `append_file` and
lookup take that for granted. The methods keep it so for the path they are called
on: what creates an entry drops its whiteout first, what makes a whiteout dropped
the entry first. The directories made on the way are another matter. They are
created without a look at their own whiteouts, so a directory that was removed
comes back beside its marker as soon as something is put below it.

## Main definitions

* `NoPair` — no entry of a tree is whited out in it
* `Op.PairFree` — the condition on the state before an operation

## Main results

* `Op.keeps_noPair` — one operation
* `noPair_runOps` — a run
-/

namespace Rspacefs

open Lib LayerFS

variable {fs fs' : Stack} {p q d s dest : Path} {n m : Name} {T : Path → Prop} {node : Node}

/-- No directory of the tree holds a name and its whiteout. -/
def NoPair (u : Tree) : Prop :=
  ∀ p, p ≠ [] → (u.get? p).isSome → u.hides p = false

/-! ### One stored path -/

theorem NoMarker.ne_whiteoutPath (hp : NoMarker p) : p ≠ whiteoutPath q := by
  rintro rfl
  exact hp _ (List.mem_append_right _ (List.mem_singleton_self _))
    (isMarker_whiteoutPrefix_append _)

theorem Upd.hides_of_ne {x : Option Node} (h : Upd fs fs' q x) (hne : whiteoutPath p ≠ q) :
    fs'.upper.hides p = fs.upper.hides p := by
  rw [Tree.hides, Tree.hides, h.get?_of_ne hne]

/-- What is dropped hides nothing. -/
theorem Upd.hides_of_erase (h : Upd fs fs' q none) (hclear : fs.upper.hides p = false) :
    fs'.upper.hides p = false := by
  by_cases hq : whiteoutPath p = q
  · rw [Tree.hides, hq, h.get?_self]
    rfl
  · rw [h.hides_of_ne hq, hclear]

namespace NoPair

theorem erase (h : NoPair fs.upper) (hupd : Upd fs fs' q none) : NoPair fs'.upper := by
  intro p hp hsome
  have hpq : p ≠ q := by
    rintro rfl
    rw [hupd.get?_self] at hsome
    cases hsome
  rw [hupd.get?_of_ne hpq] at hsome
  exact hupd.hides_of_erase (h p hp hsome)

/-- An entry may be stored where no whiteout stands, unless it is the whiteout of one. -/
theorem store (h : NoPair fs.upper) (hupd : Upd fs fs' q (some node))
    (hclear : q ≠ [] → fs.upper.hides q = false)
    (hfree : ∀ p, p ≠ [] → whiteoutPath p = q → fs.upper.get? p = none) : NoPair fs'.upper := by
  intro p hp hsome
  by_cases hmark : whiteoutPath p = q
  · -- a new whiteout, whose entry is not there
    have hpq : p ≠ q := by
      rintro rfl
      exact whiteoutPath_ne hp hmark
    rw [hupd.get?_of_ne hpq, hfree p hp hmark] at hsome
    cases hsome
  · rw [hupd.hides_of_ne hmark]
    by_cases hpq : p = q
    · exact hpq ▸ hclear (hpq ▸ hp)
    · rw [hupd.get?_of_ne hpq] at hsome
      exact h p hp hsome

end NoPair

/-! ### The invariant of a method -/

/-- No entry is whited out, nothing on the way down to `d` is, and the paths in `T` are not. -/
structure Tidy (T : Path → Prop) (d : Path) (fs : Stack) : Prop where
  noPair : NoPair fs.upper
  openTo : ∀ q, q <+: d → q ≠ [] → fs.upper.hides q = false
  spared : ∀ x, T x → fs.upper.hides x = false

namespace Tidy

theorem up (h : Tidy T d fs) (hqd : q <+: d) : Tidy T q fs :=
  ⟨h.noPair, fun x hx => h.openTo x (hx.trans hqd), h.spared⟩

/-- Down to an entry that is not whited out. -/
theorem enter (h : Tidy T p.dropLast fs) (hclear : p ≠ [] → fs.upper.hides p = false) :
    Tidy T p fs := by
  refine ⟨h.noPair, ?_, h.spared⟩
  intro q hq hne
  by_cases hqp : q = p
  · exact hqp ▸ hclear (hqp ▸ hne)
  · exact h.openTo q (prefix_dropLast_of_ne hq hqp) hne

/-- An entry that is no marker, at a path that is not whited out. -/
theorem store (h : Tidy T d fs) (hq : NoMarker q) (hclear : q ≠ [] → fs.upper.hides q = false)
    (hupd : Upd fs fs' q (some node)) : Tidy T d fs' := by
  have hhides : ∀ x, fs'.upper.hides x = fs.upper.hides x :=
    fun x => hupd.hides_of_ne hq.ne_whiteoutPath.symm
  constructor
  · exact h.noPair.store hupd hclear fun x _ hx => absurd hx.symm hq.ne_whiteoutPath
  · intro x hx hne
    rw [hhides, h.openTo x hx hne]
  · intro x hx
    rw [hhides, h.spared x hx]

theorem erase (h : Tidy T d fs) (hupd : Upd fs fs' q none) : Tidy T d fs' :=
  ⟨h.noPair.erase hupd, fun x hx hne => hupd.hides_of_erase (h.openTo x hx hne),
    fun x hx => hupd.hides_of_erase (h.spared x hx)⟩

theorem puts (h : Tidy T p fs) (hp : NoMarker p) (hputs : Puts p fs fs') : Tidy T p fs' := by
  cases hputs with
  | mkdir q hq hne _ _ hupd => exact h.store (hp.of_isPrefix hq) (h.openTo q hq) hupd
  | unmark _ hupd => exact h.erase hupd
  | write c hne _ _ hupd => exact h.store hp (h.openTo p (List.prefix_refl p)) hupd

/-- Removing `p` may make a directory on the way, and a whiteout where no whiteout of that
stands. -/
theorem cuts (h : Tidy T p.dropLast fs) (hp : NoMarker p) (hT : ∀ x, T x → x ≠ [] ∧ x ≠ p)
    (hmark : fs.upper.hides (whiteoutPath p) = false) (hcuts : Cuts p fs fs') :
    Tidy T p.dropLast fs' := by
  cases hcuts with
  | mkdir q hq hne _ _ hupd =>
    exact h.store (hp.of_isPrefix (hq.trans (List.dropLast_prefix p))) (h.openTo q hq) hupd
  | drop _ _ _ hupd => exact h.erase hupd
  | mark hne hnone _ hupd =>
    -- the whiteout is that of `p` alone, and `p` is gone by then
    have hhides : ∀ x, x ≠ [] → x ≠ p → fs'.upper.hides x = fs.upper.hides x :=
      fun x hx hxp => hupd.hides_of_ne fun he => hxp (whiteoutPath_inj hx hne he)
    constructor
    · apply h.noPair.store hupd fun _ => hmark
      intro x hx he
      rw [whiteoutPath_inj hx hne he, hnone]
    · intro x hx hxne
      rw [hhides x hxne (ne_of_prefix_dropLast hne hx), h.openTo x hx hxne]
    · intro x hx
      rw [hhides x (hT x hx).1 (hT x hx).2, h.spared x hx]

end Tidy

/-! ### Putting -/

theorem removeWhiteout_tidy :
    Triple (Tidy T p.dropLast) (removeWhiteout p) (fun _ => Tidy T p)
      (fun fs => NoPair fs.upper) := by
  refine Triple.of_forall fun fs hfs => ?_
  have hkeeps : Triple (Tidy T p.dropLast) (removeWhiteout p) (fun _ => Tidy T p.dropLast)
      (Tidy T p.dropLast) := removeWhiteout_keeps fun _ _ h _ hupd => h.erase hupd
  refine (hkeeps.and (removeWhiteout_spec fs p)).weaken ?_ ?_ fun _ h => h.1.noPair
  · intro fs₁ hfs₁
    exact ⟨hfs₁ ▸ hfs, hfs₁⟩
  · intro _ fs₁ h
    apply h.1.enter
    intro _
    rw [Tree.hides_eq_false, h.2.2, Function.update_self]

/-- The beginning of the methods that put an entry at a path. -/
theorem clearWhiteout_tidy (hp : NoMarker p) :
    Triple (Tidy T p.dropLast) (do ensureUpperParents p; removeWhiteout p) (fun _ => Tidy T p)
      (fun fs => NoPair fs.upper) := by
  have hparents : Triple (Tidy T p.dropLast) (ensureUpperParents p) (fun _ => Tidy T p.dropLast)
      (Tidy T p.dropLast) := by
    apply ensureUpperParents_keeps
    intro fs fs' q h hq hne _ _ hupd
    exact h.store (hp.of_isPrefix (hq.trans (List.dropLast_prefix p))) (h.openTo q hq) hupd
  exact Triple.bind (hparents.weaken (fun _ h => h) (fun _ _ h => h) fun _ h => h.noPair)
    fun _ => removeWhiteout_tidy

theorem mkdir_tidy (hp : NoMarker p) :
    Triple (Tidy T p) (onUpper (VfsPath.createDir p)) (fun _ => Tidy T p) (Tidy T p) := by
  apply mkdir_keeps
  intro fs fs' q h hq hne _ _ hupd
  exact h.store (hp.of_isPrefix hq) (h.openTo q hq) hupd

theorem createDir_tidy (hp : NoMarker p) :
    Triple (Tidy T p.dropLast) (LayerFS.createDir p) (fun _ => Tidy T p)
      (fun fs => NoPair fs.upper) := by
  have hassoc : (LayerFS.createDir p : VfsM Stack Unit) =
      (do ensureUpperParents p; removeWhiteout p) >>= fun _ => onUpper (VfsPath.createDir p) := by
    simp [LayerFS.createDir]
  rw [hassoc]
  exact Triple.bind (clearWhiteout_tidy hp) fun _ =>
    (mkdir_tidy hp).weaken (fun _ h => h) (fun _ _ h => h) fun _ h => h.noPair

/-- Creating the file and writing it. -/
theorem writeNew_tidy (hp : NoMarker p) (w : Bytes) :
    Triple (Tidy T p.dropLast) (thenWrite (LayerFS.createFile p) w) (fun _ => Tidy T p)
      (fun fs => NoPair fs.upper) := by
  have hI : ∀ fs fs', Tidy T p fs → Puts p fs fs' → Tidy T p fs' := fun _ _ h => h.puts hp
  have hassoc : thenWrite (LayerFS.createFile p) w =
      (do ensureUpperParents p; removeWhiteout p : VfsM Stack Unit) >>= fun _ =>
        onUpper (VfsPath.createFile p) >>= fun writer =>
          onUpper (FileSystem.writeAll writer w) := by
    simp only [thenWrite, LayerFS.createFile, bind_assoc]
    rfl
  rw [hassoc]
  apply Triple.bind (clearWhiteout_tidy hp)
  intro _
  exact (Triple.bind (mkfile_keeps hI) fun writer => writeAll_keeps hI writer w).weaken
    (fun _ h => h) (fun _ _ h => h) fun _ h => h.noPair

/-- A copy is made only of a file. -/
theorem copyFile_tidy (hp : NoMarker p) (h : NoPair fs.upper)
    (hclear : ∀ c, view fs s = some (.file c) → Tidy T p.dropLast fs) :
    Triple (· = fs) (LayerFS.copyFile s p)
      (fun _ fs' => Tidy T p fs' ∧ ∃ c, view fs s = some (.file c) ∧ Placed fs fs' p (.file c))
      (fun fs => NoPair fs.upper) := by
  by_cases hfile : ∃ c, view fs s = some (.file c)
  · obtain ⟨c, hc⟩ := hfile
    have hwrite : Triple (· = fs) (LayerFS.copyFile s p) (fun _ => Tidy T p)
        (fun fs => NoPair fs.upper) := by
      rintro _ rfl
      rw [run_copyFile hc]
      exact writeNew_tidy hp c _ (hclear c hc)
    exact (hwrite.and (copyFile_spec fs s p)).weaken (fun _ h => ⟨h, h⟩) (fun _ _ h => h)
      fun _ h => h.1
  · push Not at hfile
    exact (refuses_copyFile_layer (Or.inl hfile)).triple h

/-- Where `append_file` copies the path up, nothing on the way is whited out. -/
theorem thenWrite_appendFile_noPair (hp : NoMarker p) (h : NoPair fs.upper)
    (hclear : fs.upper.get? p = none → view fs p ≠ none → Tidy T p.dropLast fs) (w : Bytes) :
    Triple (· = fs) (thenWrite (LayerFS.appendFile p) w) (fun _ fs => NoPair fs.upper)
      (fun fs => NoPair fs.upper) := by
  refine thenWrite_appendFile_keeps ?_ w h fun hupper node hview => ?_
  · intro fs fs' c c' h hfile hupd
    apply h.store hupd fun hne => h p hne (by simp [hfile])
    intro x _ hx
    exact absurd hx.symm hp.ne_whiteoutPath
  -- what is shown is not whited out
  have htidy : Tidy T p fs :=
    (hclear hupper (by simp [hview])).enter fun _ => hides_of_view hview
  cases node with
  | file c =>
    exact (copyUp_keeps (fun _ _ h => Tidy.puts h hp) htidy hupper hview).weaken
      (fun _ h => h) (fun _ _ h => h.noPair) fun _ h => h.noPair
  | dir =>
    refine (copyUp_dir_keeps ?_ htidy hupper hview).weaken
      (fun _ h => h) (fun _ _ h => h.noPair) fun _ h => h.noPair
    intro fs fs' q h hq hne _ _ hupd
    exact h.store (hp.of_isPrefix hq) (h.openTo q hq) hupd

/-- The target directory of one level. -/
theorem makeTarget_tidy (hp : NoMarker p) :
    Triple (Tidy T p.dropLast) (makeTarget p) (fun _ => Tidy T p) (fun fs => NoPair fs.upper) := by
  have hassoc : makeTarget p = (do ensureUpperParents p; removeWhiteout p : VfsM Stack Unit) >>=
      fun _ => onUpper (unlessExists p (VfsPath.createDir p)) := by
    simp [makeTarget]
  rw [hassoc]
  refine Triple.bind (clearWhiteout_tidy hp) fun _ => onUpper_rule fun lower =>
    Triple.of_forall fun u hu => unlessExists_spec (fun _ => hu) fun _ => ?_
  refine (VfsPath.createDir_spec u p).weaken (fun _ h => h) ?_ ?_
  · rintro _ u' ⟨-, -, hne, hget⟩
    have hupd : Upd ⟨u, lower⟩ ⟨u', lower⟩ p (some .dir) := ⟨rfl, hget⟩
    exact hu.store hp (hu.openTo p (List.prefix_refl p)) hupd
  · rintro _ rfl
    exact hu.noPair

/-- Copying a directory, level by level. -/
theorem copyDirRecursive_tidy (frames : Nat) (src dest : Path) (hdest : NoMarker dest) :
    Triple (Tidy T dest.dropLast) (copyDirRecursive frames src dest) (fun _ => Tidy T dest)
      (fun fs => NoPair fs.upper) := by
  have hlevels : CopyLevels (fun _ => NoMarker) (fun _ dest => Tidy T dest.dropLast)
      (fun _ => Tidy T) (fun fs => NoPair fs.upper) := by
    constructor
    case down => exact fun _ _ _ h hn => h.concat hn
    case before => exact fun _ _ _ _ h => h.noPair
    case during => exact fun _ _ _ _ h => h.noPair
    case target => exact fun _ _ hdest => makeTarget_tidy hdest
    case enter =>
      intro _ dest n fs _ _ _ h
      rwa [List.dropLast_concat]
    case leave => exact fun _ dest n _ _ _ h => h.up (List.prefix_append dest [n])
    case file =>
      intro src dest n c hdest hn
      refine Triple.of_forall fun fs ⟨h, _⟩ => ?_
      refine (copyFile_tidy (T := T) (hdest.concat hn) h.noPair fun c _ => ?_).weaken
        (fun _ h => h) ?_ fun _ h => h
      · rwa [List.dropLast_concat]
      · intro _ fs' hcopied
        exact hcopied.1.up (List.prefix_append dest [n])
  exact hlevels.triple frames src dest hdest

/-! ### Removing -/

/-- Nothing above `p` is whited out. -/
def AncestorsClear (fs : Stack) (p : Path) : Prop :=
  ∀ q, q <+: p.dropLast → q ≠ [] → fs.upper.hides q = false

/-- No lower layer has `p`; or nothing above it is whited out, nor is its whiteout. -/
def MarkTidy (fs : Stack) (p : Path) : Prop :=
  existsInLower p fs = false ∨ AncestorsClear fs p ∧ fs.upper.hides (whiteoutPath p) = false

/-- A removal that is refused, needs no whiteout, or makes it where it may. -/
theorem remove_noPair {x : VfsM Stack Unit} (hp : NoMarker p) (h : NoPair fs.upper)
    (hx : Refuses x fs ∨ MarkTidy fs p)
    (hbare : Triple (fun fs => NoPair fs.upper ∧ existsInLower p fs = false) x
      (fun _ fs => NoPair fs.upper) (fun fs => NoPair fs.upper))
    (hkeeps : ∀ I : Stack → Prop, (∀ fs fs', I fs → Cuts p fs fs' → I fs') →
      Triple I x (fun _ => I) I) :
    Triple (· = fs) x (fun _ fs => NoPair fs.upper) (fun fs => NoPair fs.upper) := by
  rcases hx with hrefused | hlower | ⟨habove, hmark⟩
  · exact hrefused.triple h
  · exact hbare.weaken (by rintro _ rfl; exact ⟨h, hlower⟩) (fun _ _ h => h) fun _ h => h
  · have htidy : Tidy (· = whiteoutPath p) p.dropLast fs := by
      refine ⟨h, habove, ?_⟩
      rintro _ rfl
      exact hmark
    refine (hkeeps (Tidy (· = whiteoutPath p) p.dropLast) fun fs fs' h hcuts => ?_).weaken
      (by rintro _ rfl; exact htidy) (fun _ _ h => h.noPair) fun _ h => h.noPair
    refine h.cuts hp ?_ (h.spared _ rfl) hcuts
    rintro _ rfl
    exact ⟨by simp [whiteoutPath], hp.ne_whiteoutPath.symm⟩

theorem removeFile_noPair (hp : NoMarker p) (h : NoPair fs.upper)
    (hx : NoRemoveFile fs p ∨ MarkTidy fs p) :
    Triple (· = fs) (LayerFS.removeFile p) (fun _ fs => NoPair fs.upper)
      (fun fs => NoPair fs.upper) := by
  refine remove_noPair hp h (hx.imp_left NoRemoveFile.refuses) ?_ fun I hI => removeFile_keeps hI
  exact removeWith_bare (I := fun fs => NoPair fs.upper) (fun _ _ h hupd => h.erase hupd) fun u =>
    (Tree.removeFile_spec u p).weaken (fun _ h => h) (fun _ _ h => h.2) fun _ h => h

theorem removeDir_noPair (hp : NoMarker p) (h : NoPair fs.upper)
    (hx : NoRemoveDir fs p ∨ MarkTidy fs p) :
    Triple (· = fs) (LayerFS.removeDir p) (fun _ fs => NoPair fs.upper)
      (fun fs => NoPair fs.upper) := by
  refine remove_noPair hp h (hx.imp_left NoRemoveDir.refuses) ?_ fun I hI => removeDir_keeps hI
  exact removeWith_bare (I := fun fs => NoPair fs.upper) (fun _ _ h hupd => h.erase hupd) fun u =>
    (Tree.removeDir_spec u p).weaken (fun _ h => h) (fun _ _ h => h.2.2.2) fun _ h => h

/-- Removing a directory, level by level: the whiteouts of what is below are not whited out. -/
theorem removeDirRecursive_tidy (frames : Nat) (s : Path) (hs : NoMarker s)
    (hT : ∀ x, T x → ∃ y, x = whiteoutPath y)
    (hmarks : ∀ r, NoMarker r → T (whiteoutPath (s ++ r))) :
    Triple (Tidy T s) (removeDirRecursive frames s) (fun _ => Tidy T s.dropLast)
      (fun fs => NoPair fs.upper) := by
  -- what is spared is a whiteout, so it is none of the paths removed
  have hapart : ∀ p, NoMarker p → ∀ x, T x → x ≠ [] ∧ x ≠ p := by
    intro p hp x hx
    obtain ⟨y, rfl⟩ := hT x hx
    exact ⟨by simp [whiteoutPath], hp.ne_whiteoutPath.symm⟩
  have hlevels : RemoveLevels
      (fun p => NoMarker p ∧ ∀ r, NoMarker r → T (whiteoutPath (p ++ r))) (Tidy T) (Tidy T) (Tidy T)
      (fun fs => NoPair fs.upper) := by
    constructor
    case down =>
      rintro p n ⟨hp, hmarks⟩ hn
      refine ⟨hp.concat hn, fun r hr => ?_⟩
      simpa using hmarks (n :: r) (hr.cons hn)
    case before => exact fun _ _ _ h => h.noPair
    case list => exact fun _ _ _ _ h _ => h
    case enter =>
      intro p n fs _ _ hview h
      apply Tidy.enter
      · rwa [List.dropLast_concat]
      · exact fun _ => hides_of_view hview
    case file =>
      rintro p n c ⟨hp, hmarks⟩ hn
      refine (removeFile_keeps fun fs fs' (h : Tidy T p fs) hcuts => ?_).weaken (fun _ h => h.1)
        (fun _ _ h => h) fun _ h => h.noPair
      have hchild : NoMarker (p ++ [n]) := hp.concat hn
      have hmark := h.spared _ (hmarks [n] fun m hm => hchild m (List.mem_append_right p hm))
      have hup : Tidy T (p ++ [n]).dropLast fs := by rwa [List.dropLast_concat]
      simpa using hup.cuts hchild (hapart _ hchild) hmark hcuts
    case markers =>
      intro p _
      exact (removeMarkers_keeps fun m _ fs fs' (h : Tidy T p fs) _ _ hupd => h.erase hupd).weaken
        (fun _ h => h) (fun _ _ h => h) fun _ h => h.noPair
    case dir =>
      rintro p ⟨hp, hmarks⟩
      have hmark : T (whiteoutPath p) := by simpa using hmarks [] (by simp [NoMarker])
      exact (removeDir_keeps fun fs fs' (h : Tidy T p.dropLast fs) hcuts =>
        h.cuts hp (hapart p hp) (h.spared _ hmark) hcuts).weaken
          (fun _ h => h.up (List.dropLast_prefix p)) (fun _ _ h => h) fun _ h => h.noPair
  exact hlevels.triple frames s ⟨hs, hmarks⟩

/-! ### Operations -/

/-- The copy of a `move_file` is refused, or stands in the way of the removal. -/
def Unmovable (fs : Stack) (s p : Path) : Prop :=
  fs.upper.get? p = some .dir ∨ Shut fs p ∨ s ≠ p ∧ (s <+: p ∨ p <+: s)

namespace Op

/-- The paths an operation is called with. -/
def paths : Op → List Path
  | .createFile p _ | .createDir p | .appendFile p _ | .removeFile p | .removeDir p => [p]
  | .copyFile s p | .moveFile s p | .moveDir _ s p => [s, p]

/-- The condition on the state before an operation: nothing is whited out above a path whose
parents may be made, and where a whiteout may be made the upper layer has no whiteout of that. -/
def PairFree (fs : Stack) : Op → Prop
  | .createFile p _ | .createDir p => AncestorsClear fs p
  | .appendFile p _ => fs.upper.get? p ≠ none ∨ view fs p = none ∨ AncestorsClear fs p
  | .removeFile p => NoRemoveFile fs p ∨ MarkTidy fs p
  | .removeDir p => NoRemoveDir fs p ∨ MarkTidy fs p
  | .copyFile s p => (∀ c, view fs s ≠ some (.file c)) ∨ AncestorsClear fs p
  | .moveFile s p => (∀ c, view fs s ≠ some (.file c)) ∨
      AncestorsClear fs p ∧ (Unmovable fs s p ∨ MarkTidy fs s)
  | .moveDir frames s p => frames = 0 ∨ AncestorsClear fs p ∧
      (∀ q, q <+: s → q ≠ [] → fs.upper.hides q = false) ∧
      ∀ r, NoMarker r → fs.upper.hides (whiteoutPath (s ++ r)) = false

end Op

/-- To begin with, what is not whited out is spared. -/
theorem AncestorsClear.tidy (h : AncestorsClear fs p) (hno : NoPair fs.upper) :
    Tidy (fun x => fs.upper.hides x = false) p.dropLast fs :=
  ⟨hno, h, fun _ hx => hx⟩

/-- What was moved to `p` leaves `s` as it has to be for its removal. -/
theorem moveFile_noPair (hs : NoMarker s) (hp : NoMarker p) (h : NoPair fs.upper)
    (hx : (∀ c, view fs s ≠ some (.file c)) ∨
      AncestorsClear fs p ∧ (Unmovable fs s p ∨ MarkTidy fs s)) :
    Triple (· = fs) (LayerFS.moveFile s p) (fun _ fs => NoPair fs.upper)
      (fun fs => NoPair fs.upper) := by
  rcases hx with hfile | ⟨habove, hx⟩
  · exact ((refuses_copyFile_layer (Or.inl hfile)).bind _).triple h
  intro fs₀ hfs₀
  subst hfs₀
  have hcopy := copyFile_tidy hp h (fun _ _ => habove.tidy h) fs₀ rfl (s := s)
  change Ends ((LayerFS.copyFile s p >>= fun _ => LayerFS.removeFile s).run fs₀) _ _
  rw [EStateM.run_bind]
  cases hrun : (LayerFS.copyFile s p : VfsM Stack Unit).run fs₀ with
  | error e fs₁ =>
    rw [hrun] at hcopy
    exact hcopy
  | ok a fs₁ =>
    rw [hrun] at hcopy
    obtain ⟨htidy, c, -, hplaced⟩ := hcopy
    refine removeFile_noPair hs htidy.noPair ?_ fs₁ rfl
    rcases hx with (hdir | hshut | ⟨hne, hsp | hps⟩) | hlower | ⟨hclear, hmark⟩
    · exact absurd hdir (returns_copyFile_iff.mp ⟨a, fs₁, hrun⟩).2.1
    · exact absurd hshut (returns_copyFile_iff.mp ⟨a, fs₁, hrun⟩).2.2
    · -- `s` is a directory above the copy now
      exact Or.inl (Or.inl (Tree.get?_of_isPrefix hsp hne hplaced.entry))
    · -- the copy is a file above `s`
      cases hlower : existsInLower s fs₁ with
      | false => exact Or.inr (Or.inl hlower)
      | true =>
        refine Or.inl (Or.inr ⟨?_, hlower, p, c, prefix_dropLast_of_ne hps hne.symm, hplaced.entry⟩)
        by_contra hthere
        obtain ⟨m, hm⟩ := Option.ne_none_iff_exists'.mp hthere
        have hdir := Tree.get?_of_isPrefix hps hne.symm hm
        rw [hplaced.entry] at hdir
        cases hdir
    · refine Or.inr (Or.inl ?_)
      rwa [existsInLower, hplaced.lower]
    · exact Or.inr (Or.inr ⟨fun q hq hqne => htidy.spared q (hclear q hq hqne),
        htidy.spared _ hmark⟩)

theorem moveDir_noPair (frames : Nat) (hs : NoMarker s) (hp : NoMarker p) (h : NoPair fs.upper)
    (habove : AncestorsClear fs p) (hclear : ∀ q, q <+: s → q ≠ [] → fs.upper.hides q = false)
    (hmarks : ∀ r, NoMarker r → fs.upper.hides (whiteoutPath (s ++ r)) = false) :
    Triple (· = fs) (LayerFS.moveDir frames s p) (fun _ fs => NoPair fs.upper)
      (fun fs => NoPair fs.upper) := by
  have hcopy := copyDirRecursive_tidy (T := fun x => fs.upper.hides x = false) frames s p hp
  refine Triple.bind (hcopy.weaken (by rintro _ rfl; exact habove.tidy h) (fun _ _ h => h)
    fun _ h => h) fun _ => ?_
  refine (removeDirRecursive_tidy (T := fun x => ∃ r, NoMarker r ∧ x = whiteoutPath (s ++ r))
    frames s hs ?_ ?_).weaken ?_ (fun _ _ h => h.noPair) fun _ h => h
  · rintro _ ⟨r, -, rfl⟩
    exact ⟨s ++ r, rfl⟩
  · exact fun r hr => ⟨r, hr, rfl⟩
  · intro fs₁ htidy
    refine ⟨htidy.noPair, fun q hq hne => htidy.spared q (hclear q hq hne), ?_⟩
    rintro _ ⟨r, hr, rfl⟩
    exact htidy.spared _ (hmarks r hr)

/-- A pair-free operation makes no pair, whether it returns or fails. -/
theorem Op.keeps_noPair (op : Op) (hpaths : ∀ p ∈ op.paths, NoMarker p) (hop : op.PairFree fs)
    (h : NoPair fs.upper) :
    Triple (· = fs) op.exec (fun _ fs => NoPair fs.upper) (fun fs => NoPair fs.upper) := by
  -- parents that are made are above the path, where nothing is whited out
  have hstart : ∀ {p}, AncestorsClear fs p → ∀ fs', fs' = fs →
      Tidy (fun x => fs.upper.hides x = false) p.dropLast fs' := by
    rintro p habove _ rfl
    exact habove.tidy h
  cases op with
  | createFile p w =>
    exact (writeNew_tidy (hpaths p (by simp [paths])) w).weaken (hstart hop)
      (fun _ _ h => h.noPair) fun _ h => h
  | createDir p =>
    exact (createDir_tidy (hpaths p (by simp [paths]))).weaken (hstart hop)
      (fun _ _ h => h.noPair) fun _ h => h
  | appendFile p w =>
    refine thenWrite_appendFile_noPair (T := fun x => fs.upper.hides x = false)
      (hpaths p (by simp [paths])) h (fun hupper hview => ?_) w
    exact ((hop.resolve_left (not_not_intro hupper)).resolve_left hview).tidy h
  | removeFile p => exact removeFile_noPair (hpaths p (by simp [paths])) h hop
  | removeDir p => exact removeDir_noPair (hpaths p (by simp [paths])) h hop
  | copyFile s p =>
    refine (copyFile_tidy (T := fun x => fs.upper.hides x = false) (hpaths p (by simp [paths])) h
      fun c hc => ?_).weaken (fun _ h => h)
      (fun _ _ h => h.1.noPair) fun _ h => h
    exact (hop.resolve_left fun hnone => hnone c hc).tidy h
  | moveFile s p =>
    exact moveFile_noPair (hpaths s (by simp [paths])) (hpaths p (by simp [paths])) h hop
  | moveDir frames s p =>
    rcases hop with rfl | ⟨habove, hclear, hmarks⟩
    · exact (Refuses.bind ⟨_, rfl⟩ _).triple h
    · exact moveDir_noPair frames (hpaths s (by simp [paths])) (hpaths p (by simp [paths])) h
        habove hclear hmarks

/-- A run of pair-free operations on paths without markers, failed ones included, over an upper
layer that holds no entry beside its whiteout leads to one that holds none. -/
theorem noPair_runOps (fs : Stack) (ops : List Op) (h : NoPair fs.upper)
    (hpaths : ∀ op ∈ ops, ∀ p ∈ op.paths, NoMarker p)
    (hops : EachStep (fun fs op => finalState op.exec fs) (fun fs op => op.PairFree fs) fs ops) :
    NoPair (runOps fs ops).upper :=
  EachStep.invariant (I := fun fs : Stack => NoPair fs.upper)
    (hops.and (EachStep.of_forall hpaths))
    (fun _ op h hop => (op.keeps_noPair hop.2 hop.1 h).finalState rfl) h

theorem noPair_empty : NoPair Tree.empty := by
  intro p hp hsome
  simp [hp] at hsome

/-- A file of an image layer is removed, which leaves a whiteout, and made again. -/
theorem noPair_runOps_hosts :
    (runOps hostsStack [.removeFile ["etc".toList, "hosts".toList]]).upper.hides
        ["etc".toList, "hosts".toList] = true ∧
      NoPair (runOps hostsStack [.removeFile ["etc".toList, "hosts".toList],
        .createFile ["etc".toList, "hosts".toList] [2]]).upper := by
  have hclear : ∀ fs : Stack, (∀ q ∈ ["etc".toList].inits, fs.upper.hides q = false) →
      AncestorsClear fs ["etc".toList, "hosts".toList] :=
    fun _ hall q hq _ => hall q ((List.mem_inits q _).mpr hq)
  exact ⟨by decide, noPair_runOps hostsStack _ noPair_empty (by decide)
    ⟨.inr (.inr ⟨hclear _ (by decide), by decide⟩), hclear _ (by decide), trivial⟩⟩

/-- A directory is removed, and a file put into it. -/
theorem not_noPair_etc :
    ¬ ∀ (fs : Stack) (ops : List Op), NoPair fs.upper →
      (∀ op ∈ ops, ∀ p ∈ op.paths, NoMarker p) → NoPair (runOps fs ops).upper := by
  intro h
  have hpair := h hostsStack [.removeDir ["etc".toList],
    .createFile ["etc".toList, "motd".toList] [2]] noPair_empty (by decide) ["etc".toList]
    (by decide) (by decide)
  revert hpair
  decide

end Rspacefs
