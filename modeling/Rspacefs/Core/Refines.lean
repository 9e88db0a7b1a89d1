import Rspacefs.Core.Regular

/-!
# An overlay is a plain filesystem

Over lower layers that show a tree, an overlay does what a plain filesystem does: every operation
that the plain filesystem allows returns, and what is shown afterwards is what the plain filesystem
has. This holds along every run, and also when the upper layer is pushed down between two
operations, as a captured upper is that the next boot mounts as its top lower layer.

Lower layers are in the way of two operations only. A directory whose entries from a lower layer
were all removed holds their whiteouts, so `remove_dir` finds it not empty; and `move_dir` leaves no
whiteout for what a lower layer has below the source.

## Main definitions

* `Op.Clear` — no lower layer is in the way
* `Life` — an operation, or a reboot

## Main results

* `Op.matches` — one operation
* `refines_plain` — every run
-/

namespace Rspacefs

open Lib LayerFS

variable {fs fs' fs₁ : Stack} {p q s : Path} {c w : Bytes} {F F' : Plain} {node : Node}

/-! ### One operation -/

/-- The operation returns, and what it leaves shows `F'` over the same lower layers. -/
structure Matches (fs : Stack) (op : Op) (F' : Plain) : Prop where
  returns : Returns op.exec fs
  regular : Regular (finalState op.exec fs)
  plainView_eq : plainView (finalState op.exec fs) = F'
  lower : (finalState op.exec fs).lower = fs.lower

theorem finalState_of_ok {α : Type} {x : VfsM Stack α} {a : α} (h : x.run fs = .ok a fs') :
    finalState x fs = fs' := by
  rw [finalState, h]

/-- An operation that returns, shows what it should, makes no pair and no idle marker. -/
theorem Matches.of_triples {op : Op} (hfs : Regular fs) (hstep : (plainView fs).Step op F')
    (hreturns : Returns op.exec fs)
    (hshown : Triple (· = fs) op.exec (fun _ fs' => plainView fs' = F') fun _ => True)
    (hmarks : Triple (· = fs) op.exec (fun _ => MarksOver fs.lower) (MarksOver fs.lower))
    (hpaths : ∀ p ∈ op.paths, NoMarker p) (hpair : op.PairFree fs) : Matches fs op F' := by
  obtain ⟨⟨⟩, fs', hrun⟩ := hreturns
  have hend := finalState_of_ok hrun
  have heq : plainView fs' = F' := hshown.ok rfl hrun
  obtain ⟨hmarks, hlower⟩ := hmarks.ok rfl hrun
  have hpair := (op.keeps_noPair hpaths hpair hfs.noPair).ok rfl hrun
  refine ⟨⟨(), fs', hrun⟩, ?_, hend ▸ heq, hend ▸ hlower⟩
  rw [hend]
  exact ⟨heq ▸ hstep.wf hfs.wf, hpair, hmarks⟩

/-- An operation made of two. -/
theorem Matches.seq (op op₁ op₂ : Op) {F₁ F₂ : Plain}
    (hexec : op.exec = op₁.exec >>= fun _ => op₂.exec) (h₁ : Matches fs op₁ F₁)
    (h₂ : Matches (finalState op₁.exec fs) op₂ F₂) : Matches fs op F₂ := by
  obtain ⟨⟨⟨⟩, fs₁, hrun₁⟩, -, -, hlower₁⟩ := h₁
  rw [finalState_of_ok hrun₁] at h₂ hlower₁
  obtain ⟨⟨⟨⟩, fs₂, hrun₂⟩, hregular, hshown, hlower₂⟩ := h₂
  rw [finalState_of_ok hrun₂] at hregular hshown hlower₂
  have hrun : op.exec.run fs = .ok () fs₂ := by
    rw [hexec]
    exact run_bind_eq_ok.mpr ⟨(), fs₁, hrun₁, hrun₂⟩
  have hend := finalState_of_ok hrun
  exact ⟨⟨(), fs₂, hrun⟩, hend ▸ hregular, hend ▸ hshown, hend ▸ hlower₂.trans hlower₁⟩

theorem from_here {P : Stack → Prop} (h : P fs) : ∀ fs', fs' = fs → P fs' := by
  rintro _ rfl
  exact h

section Steps

variable (hfs : Regular fs)
include hfs

theorem matches_createFile (hp : PlainPath p) (hparent : plainView fs p.dropLast = some .dir)
    (hfree : plainView fs p ≠ some .dir) :
    Matches fs (.createFile p w) (Function.update (plainView fs) p (some (.file w))) := by
  have hne := hfs.wf.ne_nil hfree
  have hvisible := hfs.ancestorsVisible hparent
  refine .of_triples hfs (.createFile hparent hfree) ?_ ?_ ?_ ?_ (hvisible.clear hne)
  · exact returns_thenWrite_createFile_iff.mpr
      ⟨hfs.upper_ne_dir hp.unmarked hfree, hfs.not_shut hvisible hp.unmarked hne⟩
  · exact (writeNew_spec (createFile_spec fs p)).weaken (fun _ h => h)
      (fun _ _ h => h.plainView_eq hp.unmarked hvisible) fun _ h => h
  · exact (thenWrite_createFile_marks hp.noMarker w).weaken (from_here ⟨hfs.marks, rfl⟩)
      (fun _ _ h => h) fun _ h => h
  · simpa [Op.paths] using hp.noMarker

theorem matches_createDir (hp : PlainPath p) (hparent : plainView fs p.dropLast = some .dir)
    (hfree : plainView fs p = none) :
    Matches fs (.createDir p) (Function.update (plainView fs) p (some .dir)) := by
  have hne := hfs.wf.ne_nil (p := p) (by simp [hfree])
  have hvisible := hfs.ancestorsVisible hparent
  refine .of_triples hfs (.createDir hparent hfree) ?_ ?_ ?_ ?_ (hvisible.clear hne)
  · exact returns_createDir_iff.mpr
      ⟨hfs.upper_eq_none hp.unmarked hfree, hfs.not_shut hvisible hp.unmarked hne⟩
  · exact (createDir_spec fs p).weaken (fun _ h => h)
      (fun _ _ h => h.plainView_eq hp.unmarked hvisible) fun _ h => h
  · exact (createDir_marks hp.noMarker).weaken (from_here ⟨hfs.marks, rfl⟩) (fun _ _ h => h)
      fun _ h => h
  · simpa [Op.paths] using hp.noMarker

theorem matches_removeFile (hp : PlainPath p) (hfile : plainView fs p = some (.file c)) :
    Matches fs (.removeFile p) (Function.update (plainView fs) p none) := by
  have hne := hfs.wf.ne_nil (p := p) (by simp [hfile])
  have hvisible := hfs.ancestorsVisible_of_plainView (p := p) (by simp [hfile])
  refine .of_triples hfs (.removeFile hfile) ?_ ?_ ?_ ?_ (Or.inr (hfs.markTidy hvisible hne))
  · apply returns_removeFile_iff.mpr
    cases hentry : fs.upper.get? p with
    | none => exact Or.inl ⟨rfl, fun _ => hfs.not_blocked hvisible hp.unmarked hne⟩
    | some node =>
      have hshown := hfs.plainView_of_upper hp.unmarked hentry
      rw [hfile] at hshown
      exact Or.inr ⟨c, hshown.symm⟩
  · exact (removeFile_spec fs p).weaken (fun _ h => h)
      (fun _ _ h => h.plainView_eq hp.unmarked hvisible) fun _ h => h
  · exact (removeFile_marks fun _ => hp).weaken (from_here ⟨hfs.marks, rfl⟩) (fun _ _ h => h)
      fun _ h => h
  · simpa [Op.paths] using hp.noMarker

theorem matches_removeDir (hp : PlainPath p) (hne : p ≠ []) (hdir : plainView fs p = some .dir)
    (hempty : ∀ a, plainView fs (p ++ [a]) = none)
    (hclear : ∀ a, ¬ IsMarker a → ¬ InLower fs.lower (p ++ [a])) :
    Matches fs (.removeDir p) (Function.update (plainView fs) p none) := by
  have hvisible := hfs.ancestorsVisible_of_plainView (p := p) (by simp [hdir])
  refine .of_triples hfs (.removeDir hne hdir hempty) ?_ ?_ ?_ ?_
    (Or.inr (hfs.markTidy hvisible hne))
  · apply returns_removeDir_iff.mpr
    cases hentry : fs.upper.get? p with
    | none => exact Or.inl ⟨rfl, fun _ => hfs.not_blocked hvisible hp.unmarked hne⟩
    | some node =>
      have hshown := hfs.plainView_of_upper hp.unmarked hentry
      rw [hdir] at hshown
      refine Or.inr ⟨hshown.symm, hne, PathMap.children_eq_nil.mpr fun a => ?_⟩
      -- neither an entry, which would show, nor a marker, which would hide something
      by_contra hchild
      obtain ⟨m, hm⟩ := Option.ne_none_iff_exists'.mp hchild
      by_cases hmarker : IsMarker a
      · obtain ⟨-, x, -, hx, hlower⟩ := hfs.marks p a m hmarker hm
        exact hclear x hx.2 hlower
      · have hshown := hfs.plainView_of_upper (hp.unmarked.concat hne hmarker) hm
        rw [hempty a] at hshown
        cases hshown
  · exact (removeDir_spec fs p).weaken (fun _ h => h)
      (fun _ _ h => h.plainView_eq hp.unmarked hvisible) fun _ h => h
  · exact (removeDir_marks fun _ => hp).weaken (from_here ⟨hfs.marks, rfl⟩) (fun _ _ h => h)
      fun _ h => h
  · simpa [Op.paths] using hp.noMarker

theorem matches_copyFile (hs : PlainPath s) (hp : PlainPath p)
    (hsource : plainView fs s = some (.file c)) (hparent : plainView fs p.dropLast = some .dir)
    (hfree : plainView fs p = none) :
    Matches fs (.copyFile s p) (Function.update (plainView fs) p (some (.file c))) := by
  have hne := hfs.wf.ne_nil (p := p) (by simp [hfree])
  have hvisible := hfs.ancestorsVisible hparent
  have hview := view_of_plainView hsource
  refine .of_triples hfs (.copyFile hsource hparent hfree) ?_ ?_ ?_ ?_ (Or.inr (hvisible.clear hne))
  · exact returns_copyFile_iff.mpr ⟨⟨c, hview⟩, hfs.upper_ne_dir hp.unmarked (by simp [hfree]),
      hfs.not_shut hvisible hp.unmarked hne⟩
  · refine (copyFile_spec fs s p).weaken (fun _ h => h) ?_ fun _ h => h
    rintro _ fs' ⟨c', hc', hplaced⟩
    obtain rfl := Node.file.inj (Option.some.inj (hview.symm.trans hc'))
    exact hplaced.plainView_eq hp.unmarked hvisible
  · exact (copyFile_marks hp.noMarker s).weaken (from_here ⟨hfs.marks, rfl⟩) (fun _ _ h => h)
      fun _ h => h
  · simpa [Op.paths] using ⟨hs.noMarker, hp.noMarker⟩

theorem matches_moveFile (hs : PlainPath s) (hp : PlainPath p)
    (hsource : plainView fs s = some (.file c)) (hparent : plainView fs p.dropLast = some .dir)
    (hfree : plainView fs p = none) :
    Matches fs (.moveFile s p)
      (Function.update (Function.update (plainView fs) p (some (.file c))) s none) := by
  have hcopy := matches_copyFile hfs hs hp hsource hparent hfree
  have hsp : s ≠ p := by
    rintro rfl
    rw [hfree] at hsource
    cases hsource
  refine Matches.seq _ _ (.removeFile s) rfl hcopy ?_
  rw [← hcopy.plainView_eq]
  refine matches_removeFile hcopy.regular hs (c := c) ?_
  rw [hcopy.plainView_eq, Function.update_of_ne hsp, hsource]

end Steps

/-! ### Appending -/

theorem Tree.returns_writeAll {t : Tree} {writer : Writer}
    (hentry : t.get? writer.path = some (.file c)) :
    Returns (FileSystem.writeAll writer w : VfsM Tree Unit) t := by
  obtain ⟨t', ht'⟩ := Tree.setNode_isSome (n := .file (splice c writer.position w))
    (Tree.ne_nil_of_file hentry) (Tree.get?_parent (Tree.ne_nil_of_file hentry) hentry)
    (Or.inr (by simp [hentry]))
  refine ⟨(), t', ?_⟩
  change Tree.writeAll writer w t = _
  rw [Tree.writeAll]
  simp only [hentry, ht']
  rfl

theorem returns_append_upper (hentry : fs.upper.get? p = some (.file c)) :
    Returns (thenWrite (onUpper (FileSystem.appendFile p)) w) fs := by
  have hopen : (FileSystem.appendFile p : VfsM Tree Writer).run fs.upper =
      .ok ⟨p, c.length⟩ fs.upper := by
    change Tree.appendFile p fs.upper = _
    rw [Tree.appendFile, hentry]
  refine Returns.bind_iff.mpr ⟨⟨p, c.length⟩, fs, run_onPart_eq_ok.mpr ⟨fs.upper, hopen, rfl⟩, ?_⟩
  exact returns_onUpper_iff.mpr (Tree.returns_writeAll hentry)

theorem returns_copyUp (hfree : ¬ Blocked fs p) (hupper : fs.upper.get? p = none)
    (hview : view fs p = some (.file c)) : Returns (copyUp p : VfsM Stack Unit) fs := by
  have hne := ne_nil_of_get?_eq_none hupper
  obtain ⟨fs₁, hrun, hparent⟩ := exists_run_ensureUpperParents hfree
  have hgrow := ((ensureUpperParents_spec fs p).ok rfl hrun).2.1
  have hmissing : fs₁.upper.get? p = none :=
    (hgrow.of_not_prefix (not_prefix_dropLast hne)).trans hupper
  obtain ⟨writer, u, hopen⟩ := VfsPath.returns_createFile_iff.mpr ⟨by simp [hmissing], hparent⟩
  obtain ⟨rfl, -, -, -, hget⟩ := (VfsPath.createFile_spec fs₁.upper p).ok rfl hopen
  have hplace : Returns (placeNode p (.file c)) fs₁ := by
    refine Returns.bind_iff.mpr
      ⟨⟨p, 0⟩, ⟨u, fs₁.lower⟩, run_onPart_eq_ok.mpr ⟨u, hopen, rfl⟩, ?_⟩
    refine returns_onUpper_iff.mpr (Tree.returns_writeAll (c := []) ?_)
    simp [hget]
  obtain ⟨a, fs₂, hrun₂⟩ := hplace
  exact ⟨a, fs₂, (run_copyUp hupper hview).trans (run_bind_eq_ok.mpr ⟨(), fs₁, hrun, hrun₂⟩)⟩

theorem returns_thenWrite_appendFile (hne : p ≠ []) (hfree : ¬ Blocked fs p)
    (hview : view fs p = some (.file c)) : Returns (thenWrite (LayerFS.appendFile p) w) fs := by
  have happend := run_appendFile fs p
  cases hupper : fs.upper.get? p with
  | some node =>
    obtain rfl : node = .file c := by
      rw [view_of_upper (hides_of_view hview) hupper] at hview
      exact Option.some.inj hview
    rw [if_pos (by simp [hupper])] at happend
    obtain ⟨writer, fs', hrun, hrest⟩ :=
      Returns.bind_iff.mp (returns_append_upper (w := w) hupper)
    exact Returns.bind_iff.mpr ⟨writer, fs', happend.trans hrun, hrest⟩
  | none =>
    rw [if_neg (by simp [hupper]), if_pos (by simp [hview])] at happend
    obtain ⟨⟨⟩, fs₁, hcopy⟩ := returns_copyUp hfree hupper hview
    have hplaced := (copyUp_spec hne hview hupper).ok rfl hcopy
    obtain ⟨writer, fs', hrun, hrest⟩ :=
      Returns.bind_iff.mp (returns_append_upper (w := w) hplaced.entry)
    refine Returns.bind_iff.mpr ⟨writer, fs', ?_, hrest⟩
    rw [happend]
    exact run_bind_eq_ok.mpr ⟨(), fs₁, hcopy, hrun⟩

theorem matches_appendFile (hfs : Regular fs) (hp : PlainPath p)
    (hfile : plainView fs p = some (.file c)) :
    Matches fs (.appendFile p w) (Function.update (plainView fs) p (some (.file (c ++ w)))) := by
  have hne := hfs.wf.ne_nil (p := p) (by simp [hfile])
  have hvisible := hfs.ancestorsVisible_of_plainView (p := p) (by simp [hfile])
  have hview := view_of_plainView hfile
  refine .of_triples hfs (.appendFile hfile) ?_ ?_ ?_ ?_ (Or.inr (Or.inr (hvisible.clear hne)))
  · exact returns_thenWrite_appendFile hne (hfs.not_blocked hvisible hp.unmarked hne) hview
  · exact (appendFile_spec hne hview).weaken (fun _ h => h)
      (fun _ _ h => h.plainView_eq hp.unmarked hvisible) fun _ h => h
  · exact thenWrite_appendFile_marks hp.noMarker w ⟨hfs.marks, rfl⟩ hview
  · simpa [Op.paths] using hp.noMarker

/-! ### Moving a directory -/

/-- A movable directory is moved with one stack frame for each level of it. -/
theorem Movable.exists_run {frames : Nat} (h : Movable fs s p) (ha : Apart s p)
    (hview : view fs s = some .dir) (hframes : ∀ r ∈ ShownBelow fs s, r.length < frames) :
    ∃ fs', (LayerFS.moveDir frames s p : VfsM Stack Unit).run fs = .ok () fs' ∧
      DirMoved fs fs' s p := by
  have hnil : NoMarker [] := by simp [NoMarker]
  have hsource : view fs (s ++ []) = some .dir := by rwa [List.append_nil]
  have hall : Below (ShownBelow fs s) [] = ShownBelow fs s := by
    ext r
    simp [Below]
  obtain ⟨fs₁, hcopy, hcopied⟩ := exists_run_copyDirRecursive (h.copyable ha) ha frames
    (Copied.start fs s p) hnil hsource (fun q hq hne => absurd (List.prefix_nil.mp hq) hne)
    fun r hr => by simpa using hframes r hr.1
  rw [Set.empty_union, hall] at hcopied
  rw [List.append_nil, List.append_nil] at hcopy
  have honly := copyDirRecursive_onlyBelow hcopy
  have hremovable : Removable fs₁ s := (honly.removable_iff ha).mpr h.toRemovable
  have hpos := hframes [] ⟨hnil, by simp [hview]⟩
  obtain ⟨k, rfl⟩ := Nat.exists_eq_add_one_of_ne_zero (show frames ≠ 0 by omega)
  have hview₁ : view fs₁ s = some .dir := (honly.view_self ha.symm).trans hview
  obtain ⟨fs', hremove, hgone, hmarker⟩ := exists_run_removeSource hremovable ha.source ha.ne_nil k
    hview₁ fun r hr => by
      -- what is held below the source is shown there
      have hentry : fs.upper.get? (s ++ r) ≠ none := by
        rw [← honly.get?_of_apart ha.symm (List.prefix_append s r)]
        exact hr.2
      obtain ⟨node, hnode⟩ := Option.ne_none_iff_exists'.mp hentry
      refine hframes r ⟨hr.1, ?_⟩
      rw [view_of_upper (h.clear r ⟨hr.1, hentry⟩) hnode]
      simp
  exact ⟨fs', run_bind_eq_ok.mpr ⟨(), fs₁, hcopy, hremove⟩,
    h.dirMoved ha hcopied honly (removeDirRecursive_onlyBelow hremove) hgone hmarker⟩

theorem NoMarker.of_append {r : Path} (h : NoMarker (p ++ r)) : NoMarker r :=
  fun n hn => h n (List.mem_append_right p hn)

theorem DirMoved.plainView_eq (h : DirMoved fs fs' s p) (ha : Apart s p) :
    plainView fs' = (plainView fs).moved s p := by
  funext q
  by_cases hpq : p <+: q
  · obtain ⟨r, rfl⟩ := hpq
    rw [Plain.moved, if_pos (List.prefix_append p r), List.drop_left]
    by_cases hr : NoMarker r
    · rw [plainView_of_unmarked (ha.symm.unmarked hr), plainView_of_unmarked (ha.unmarked hr),
        h.arrived r hr]
    · rw [plainView, plainView, if_neg fun hq => hr hq.1.of_append,
        if_neg fun hq => hr hq.1.of_append]
  · rw [Plain.moved, if_neg hpq]
    split
    · rename_i hsq
      obtain ⟨r, rfl⟩ := hsq
      rw [plainView]
      split
      · rename_i hq
        exact h.gone r hq.1.of_append
      · rfl
    · rename_i hsq
      by_cases hq : Unmarked q
      · rw [plainView_of_unmarked hq, plainView_of_unmarked hq, h.elsewhere q hq hsq hpq]
      · rw [plainView, plainView, if_neg hq, if_neg hq]

theorem moveDir_marks {L : List Tree} (frames : Nat) (hs : PlainPath s) (hp : NoMarker p)
    (hbelow : ∀ r, r ≠ [] → NoMarker r → ¬ InLower L (s ++ r)) :
    Triple (MarksOver L) (LayerFS.moveDir frames s p) (fun _ => MarksOver L) (MarksOver L) :=
  Triple.bind
    (copyDirRecursive_keeps frames s p fun _ hr _ _ h => h.puts (hp.append hr)) fun _ =>
    removeDirRecursive_marks frames hs hbelow

section MoveDir

variable (hfs : Regular fs) (hs : PlainPath s) (hp : PlainPath p)
  (hsource : plainView fs s = some .dir) (hparent : plainView fs p.dropLast = some .dir)
  (hfree : plainView fs p = none) (hapart : ¬ s <+: p)
  (hbelow : ∀ r, r ≠ [] → NoMarker r → ¬ InLower fs.lower (s ++ r))
  (hfile : ∀ t ∈ fs.lower, ∀ c, t.get? s ≠ some (.file c))
include hfs hs hp hsource hfree hapart

theorem apart_of_moved : Apart s p := by
  refine ⟨hs.unmarked, hp.unmarked, hapart, fun hps => ?_⟩
  by_cases hsp : p = s
  · rw [hsp, hsource] at hfree
    cases hfree
  · have hdir := hfs.wf.dir_above hps hsp (by simp [hsource])
    rw [hdir] at hfree
    cases hfree

include hparent hbelow hfile

theorem movable_of_regular : Movable fs s p := by
  have ha := apart_of_moved hfs hs hp hsource hfree hapart
  have hsvisible := hfs.ancestorsVisible_of_plainView (p := s) (by simp [hsource])
  have hpvisible := hfs.ancestorsVisible hparent
  have hpne := ha.symm.ne_nil
  -- nothing is shown at or below the destination, so the upper layer has nothing there
  have hempty : ∀ r, NoMarker r → plainView fs (p ++ r) = none := by
    intro r hr
    by_cases hnil : r = []
    · rw [hnil, List.append_nil, hfree]
    · exact hfs.wf.eq_none_below (List.prefix_append p r) (by simpa using hnil) (by simp [hfree])
  have hgaps : ∀ {q}, q ≠ [] → AncestorsVisible fs q → GapsShow fs q := fun hne hvisible x hx _ _ =>
    hvisible x (hx.trans (List.dropLast_prefix _)) (ne_of_prefix_dropLast hne hx)
  constructor
  case toRemovable =>
    constructor
    case bare =>
      right
      intro r hne hr
      refine lowerView_of_forall_none fun t ht => ?_
      by_contra hentry
      exact hbelow r hne hr.1.of_append ⟨t, ht, hentry⟩
    case clear =>
      intro r hr
      exact hfs.noPair _ (by simp [ha.ne_nil]) (Option.isSome_iff_ne_none.mpr hr.2)
    case marker => exact fun r m _ hm => hfs.marks.ne_dir hm
    case listed =>
      rintro r hr hview (⟨c, hc⟩ | ⟨-, t, ht, c, hc⟩)
      · have hshown := hfs.plainView_of_upper (ha.unmarked hr) hc
        rw [plainView_of_unmarked (ha.unmarked hr), hview] at hshown
        cases hshown
      · by_cases hnil : r = []
        · rw [hnil, List.append_nil] at hc
          exact hfile t ht c hc
        · exact hbelow r hnil hr ⟨t, ht, by simp [hc]⟩
    case free => exact hfs.not_blocked hsvisible ha.source ha.ne_nil
  case gaps => exact hgaps ha.ne_nil hsvisible
  case target_free => exact hfs.not_blocked hpvisible ha.target hpne
  case target_gaps => exact hgaps hpne hpvisible
  case target_marker => exact fun r _ => hfs.marks.whiteoutPath_ne_dir (p ++ r)
  case target_kind =>
    intro r hr m hm
    rw [hfs.upper_eq_none (ha.symm.unmarked hr.1) (hempty r hr.1)] at hm
    cases hm
  case target_empty =>
    intro r hr _
    rw [← plainView_of_unmarked (ha.symm.unmarked hr), hempty r hr]

theorem matches_moveDir {frames : Nat}
    (hframes : ∀ r, plainView fs (s ++ r) ≠ none → r.length < frames) :
    Matches fs (.moveDir frames s p) ((plainView fs).moved s p) := by
  have ha := apart_of_moved hfs hs hp hsource hfree hapart
  have hmovable := movable_of_regular hfs hs hp hsource hparent hfree hapart hbelow hfile
  have hsvisible := hfs.ancestorsVisible_of_plainView (p := s) (by simp [hsource])
  have hdepth : ∀ r ∈ ShownBelow fs s, r.length < frames := by
    intro r hr
    apply hframes
    rw [plainView_of_unmarked (ha.unmarked hr.1)]
    exact hr.2
  obtain ⟨fs', hrun, hmoved⟩ := hmovable.exists_run ha (view_of_plainView hsource) hdepth
  -- it returns, shows the moved tree, and leaves markers and pairs as a regular stack has them
  refine .of_triples hfs (.moveDir hsource hparent hfree hapart hframes) ⟨(), fs', hrun⟩ ?_ ?_ ?_ ?_
  · intro fs₀ hfs₀
    change Ends ((LayerFS.moveDir frames s p : VfsM Stack Unit).run fs₀) _ _
    rw [hfs₀, hrun]
    exact hmoved.plainView_eq ha
  · exact (moveDir_marks frames hs hp.noMarker hbelow).weaken (from_here ⟨hfs.marks, rfl⟩)
      (fun _ _ h => h) fun _ h => h
  · simpa [Op.paths] using ⟨hs.noMarker, hp.noMarker⟩
  · refine Or.inr ⟨(hfs.ancestorsVisible hparent).clear ha.symm.ne_nil, fun q hq hne => ?_,
      fun r _ => hfs.marks.not_hides_whiteoutPath _⟩
    by_cases hqs : q = s
    · rw [hqs]
      exact hides_of_view (view_of_plainView hsource)
    · exact hides_of_view (hsvisible q hq hqs)

end MoveDir

/-! ### Runs, across reboots -/

/-- Where the lower layers are in the way of an operation: a whiteout is left in a directory that
is removed, and what is moved has no entries of lower layers in it. -/
def Op.Clear (lower : List Tree) : Op → Prop
  | .removeDir p => ∀ a, ¬ IsMarker a → ¬ InLower lower (p ++ [a])
  | .moveDir _ s _ => (∀ r, r ≠ [] → NoMarker r → ¬ InLower lower (s ++ r)) ∧
      ∀ t ∈ lower, ∀ c, t.get? s ≠ some (.file c)
  | _ => True

/-- One operation that a plain filesystem allows. -/
theorem Op.matches (hfs : Regular fs) {op : Op} (hstep : (plainView fs).Step op F')
    (hpaths : ∀ p ∈ op.paths, PlainPath p) (hclear : op.Clear fs.lower) : Matches fs op F' := by
  cases hstep with
  | createFile hparent hfree =>
    exact matches_createFile hfs (hpaths _ (by simp [Op.paths])) hparent hfree
  | createDir hparent hfree =>
    exact matches_createDir hfs (hpaths _ (by simp [Op.paths])) hparent hfree
  | appendFile hfile => exact matches_appendFile hfs (hpaths _ (by simp [Op.paths])) hfile
  | removeFile hfile => exact matches_removeFile hfs (hpaths _ (by simp [Op.paths])) hfile
  | removeDir hne hdir hempty =>
    exact matches_removeDir hfs (hpaths _ (by simp [Op.paths])) hne hdir hempty hclear
  | copyFile hsource hparent hfree =>
    exact matches_copyFile hfs (hpaths _ (by simp [Op.paths])) (hpaths _ (by simp [Op.paths]))
      hsource hparent hfree
  | moveFile hsource hparent hfree =>
    exact matches_moveFile hfs (hpaths _ (by simp [Op.paths])) (hpaths _ (by simp [Op.paths]))
      hsource hparent hfree
  | moveDir hsource hparent hfree hapart hframes =>
    exact matches_moveDir hfs (hpaths _ (by simp [Op.paths])) (hpaths _ (by simp [Op.paths]))
      hsource hparent hfree hapart hclear.1 hclear.2 hframes

/-- A client's operation; or a reboot, which puts the upper layer on top of the lower ones. -/
inductive Life
  | op (o : Op)
  | reboot

namespace Life

/-- The plain filesystem does not see a reboot. -/
inductive Step (F : Plain) : Life → Plain → Prop
  | op {o : Op} {F' : Plain} (h : F.Step o F') : Step F (.op o) F'
  | reboot : Step F .reboot F

def next (fs : Stack) : Life → Stack
  | .op o => finalState o.exec fs
  | .reboot => pushDown fs.upper fs.lower

/-- The operation is on a client's paths, and the lower layers are not in its way. -/
def Clear (fs : Stack) : Life → Prop
  | .op o => (∀ p ∈ o.paths, PlainPath p) ∧ o.Clear fs.lower
  | .reboot => True

/-- An operation returns. -/
def Succeeds (fs : Stack) : Life → Prop
  | .op o => Returns o.exec fs
  | .reboot => True

end Life

theorem marks_empty (lower : List Tree) : Marks ⟨Tree.empty, lower⟩ := by
  intro d m node _ hget
  simp at hget

theorem plainView_pushDown (h : Regular fs) :
    plainView (pushDown fs.upper fs.lower) = plainView fs := by
  funext p
  by_cases hp : Unmarked p
  · rw [plainView_of_unmarked hp, plainView_of_unmarked hp]
    by_cases hne : p = []
    · subst hne
      rw [view_of_plainView h.wf.root, pushDown, view_root, Tree.get?_empty]
      rfl
    · rw [view_eq, view_eq]
      change (Tree.empty.verdict p).getD (lowerView (fs.upper :: fs.lower) p) = _
      rw [verdict_empty hne, lowerView_cons, Tree.lowerVerdict_eq_verdict hp.not_isMarker_name]
      rfl
  · rw [plainView, plainView, if_neg hp, if_neg hp]

theorem Regular.reboot (h : Regular fs) : Regular (pushDown fs.upper fs.lower) where
  wf := plainView_pushDown h ▸ h.wf
  noPair := noPair_empty
  marks := marks_empty _

/-- Over an empty upper layer, where the lower layers show a tree. -/
theorem regular_fresh {lower : List Tree} (h : Intact ⟨Tree.empty, lower⟩) :
    Regular ⟨Tree.empty, lower⟩ where
  wf := by
    refine wf_plainView_iff.mpr ⟨?_, isTree_iff_intact.mpr h⟩
    rw [view_root, Tree.get?_empty]
    rfl
  noPair := noPair_empty
  marks := marks_empty lower

/-- What a client is told about a path is what the plain filesystem has. -/
structure AnswersAs (fs : Stack) (F : Plain) (p : Path) : Prop where
  existsAt : LayerFS.existsAt p fs = .ok (F p).isSome
  metadata : LayerFS.metadata p fs = match F p with
    | none => .error .fileNotFound
    | some node => .ok ⟨node.fileType, node.len⟩
  openFile : LayerFS.openFile p fs = match F p with
    | none => .error .fileNotFound
    | some node => .ok node.reader

theorem answersAs (hp : Unmarked p) : AnswersAs fs (plainView fs) p := by
  have hshown : plainView fs p = view fs p := plainView_of_unmarked hp
  constructor
  case existsAt => rw [LayerFS.existsAt_eq, hshown]
  case metadata =>
    rw [hshown]
    refine (LayerFS.metadata_eq fs p).trans ?_
    cases view fs p with
    | none => rfl
    | some node => rfl
  case openFile =>
    rw [hshown]
    refine (LayerFS.openFile_eq fs p).trans ?_
    cases view fs p with
    | none => rfl
    | some node => rfl

theorem AnswersAs.of_eq {F F' : Plain} (h : AnswersAs fs F p) (heq : F p = F' p) :
    AnswersAs fs F' p := by
  obtain ⟨hexists, hmetadata, hopen⟩ := h
  rw [heq] at hexists hmetadata hopen
  exact ⟨hexists, hmetadata, hopen⟩

/-- A run from a regular state is the run of the plain filesystem. -/
theorem regular_run {acts : List Life} (hfs : Regular fs)
    (hrun : Steps Life.Step (plainView fs) acts F')
    (hclear : EachStep Life.next Life.Clear fs acts) :
    EachStep Life.next Life.Succeeds fs acts ∧
      Regular (acts.foldl Life.next fs) ∧ plainView (acts.foldl Life.next fs) = F' := by
  have hstep : ∀ (F : Plain) (fs : Stack) (a : Life) (F₁ : Plain),
      (Regular fs ∧ plainView fs = F) → a.Clear fs → Life.Step F a F₁ →
        a.Succeeds fs ∧ Regular (Life.next fs a) ∧ plainView (Life.next fs a) = F₁ := by
    rintro _ fs a F₁ ⟨hfs, rfl⟩ hclear hstep
    cases hstep with
    | op h =>
      have hmatches := Op.matches hfs h hclear.1 hclear.2
      exact ⟨hmatches.returns, hmatches.regular, hmatches.plainView_eq⟩
    | reboot => exact ⟨trivial, hfs.reboot, plainView_pushDown hfs⟩
  exact hrun.simulate hstep hclear ⟨hfs, rfl⟩

/-- An overlay, fresh over lower layers that show a tree, is a plain filesystem: whatever run of
operations the plain filesystem allows, with reboots between them, every operation of it returns
and every path afterwards answers as in the plain filesystem, unless a lower layer is in the way of
removing or moving a directory. -/
theorem refines_plain (lower : List Tree) (hintact : Intact ⟨Tree.empty, lower⟩) (acts : List Life)
    (F' : Plain) (hrun : Steps Life.Step (plainView ⟨Tree.empty, lower⟩) acts F')
    (hclear : EachStep Life.next Life.Clear ⟨Tree.empty, lower⟩ acts) :
    EachStep Life.next Life.Succeeds ⟨Tree.empty, lower⟩ acts ∧
      ∀ p, PlainPath p → AnswersAs (acts.foldl Life.next ⟨Tree.empty, lower⟩) F' p := by
  obtain ⟨hok, -, hshown⟩ := regular_run (regular_fresh hintact) hrun hclear
  refine ⟨hok, fun p hp => ?_⟩
  rw [← hshown]
  exact answersAs hp.unmarked

/-- The file of the image is removed and another made, which the next boot moves. -/
def hostsLife : List Life :=
  [.op (.removeFile ["etc".toList, "hosts".toList]),
    .op (.createFile ["etc".toList, "motd".toList] [2]), .reboot,
    .op (.moveFile ["etc".toList, "motd".toList] ["motd".toList])]

theorem refines_plain_hosts :
    LayerFS.existsAt ["etc".toList, "hosts".toList] (hostsLife.foldl Life.next hostsStack) =
        .ok false ∧
      LayerFS.openFile ["motd".toList] (hostsLife.foldl Life.next hostsStack) = .ok ⟨.ok [2]⟩ := by
  have hintact : Intact hostsStack := isTree_iff_intact.mp (isTree_single (by decide))
  have hclear : EachStep Life.next Life.Clear hostsStack hostsLife :=
    ⟨⟨by decide, trivial⟩, ⟨by decide, trivial⟩, trivial, ⟨by decide, trivial⟩, trivial⟩
  have hremove : plainView hostsStack ["etc".toList, "hosts".toList] = some (.file [1]) := by decide
  obtain ⟨F', hrun, hhosts, hmotd⟩ : ∃ F', Steps Life.Step (plainView hostsStack) hostsLife F' ∧
      F' ["etc".toList, "hosts".toList] = none ∧ F' ["motd".toList] = some (.file [2]) := by
    refine ⟨_, .cons (.op (.removeFile hremove)) (.cons (.op (.createFile ?_ ?_)) (.cons .reboot
      (.cons (.op (.moveFile (?_ : _ = some (Node.file [2])) ?_ ?_)) (.nil _)))), ?_, ?_⟩ <;> decide
  have hall := (refines_plain hostsStack.lower hintact hostsLife F' hrun hclear).2
  have hgone := (hall ["etc".toList, "hosts".toList] (by decide)).existsAt
  have hmoved := (hall ["motd".toList] (by decide)).openFile
  rw [hhosts] at hgone
  rw [hmotd] at hmoved
  exact ⟨hgone, hmoved⟩

end Rspacefs
