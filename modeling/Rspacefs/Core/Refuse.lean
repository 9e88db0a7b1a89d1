import Rspacefs.Core.Overwrite

/-!
# Calls that fail and change nothing

When a changing method of `LayerFS` over trees fails before it has done anything: a regular
file of the upper layer stands above the path, a directory stands where the whiteout marker
would be removed, the entry is of the wrong kind, or there is nothing to copy.

## Main definitions

* `Blocked`, `Shut` — the upper layer cannot take a path

## Main results

One lemma per method.
-/

namespace Rspacefs

open Lib LayerFS

variable {t : Tree} {fs : Stack} {p src dest : Path} {c : Bytes}

/-- A regular file of the upper layer stands above the path. -/
def Blocked (fs : Stack) (p : Path) : Prop :=
  ∃ q c, q <+: p.dropLast ∧ fs.upper.get? q = some (.file c)

/-- The upper layer cannot take an entry at the path: a file stands above it, or a directory
where its whiteout marker would be. -/
def Shut (fs : Stack) (p : Path) : Prop :=
  Blocked fs p ∨ fs.upper.get? (whiteoutPath p) = some .dir

/-! ### Steps on the upper layer -/

theorem Refuses.onUpper {α : Type} {x : VfsM Tree α} (h : Refuses x fs.upper) :
    Refuses (onUpper x : VfsM Stack α) fs :=
  Lib.Refuses.onPart h rfl

theorem getParent_tree_ne_ok (action : String) (h : t.get? p.dropLast ≠ some .dir) :
    ∃ e, VfsPath.getParent action p t = .error e := by
  rw [VfsPath.getParent, Tree.existsAt_eq]
  cases hparent : t.get? p.dropLast with
  | none => exact ⟨_, rfl⟩
  | some n =>
    rw [Tree.metadata_of_some hparent]
    cases n with
    | dir => exact absurd hparent h
    | file c => exact ⟨_, rfl⟩

/-- Nothing is created in what is not a directory. -/
theorem VfsPath.refuses_createDir (h : t.get? p.dropLast ≠ some .dir) :
    Refuses (VfsPath.createDir p : VfsM Tree Unit) t := by
  obtain ⟨e, he⟩ := getParent_tree_ne_ok "create directory" h
  exact (Refuses.ask he).bind _

theorem VfsPath.refuses_createFile (h : t.get? p.dropLast ≠ some .dir) :
    Refuses (VfsPath.createFile p : VfsM Tree Writer) t := by
  obtain ⟨e, he⟩ := getParent_tree_ne_ok "create file" h
  exact (Refuses.ask he).bind _

/-- Directories that are there are left alone. -/
theorem run_ensureDirs_there (current : Path) (parts : List Name)
    (h : (t.get? (current ++ parts)).isSome) :
    (ensureDirs current parts : VfsM Tree Unit).run t = .ok () t := by
  induction parts generalizing current with
  | nil => rfl
  | cons part rest ih =>
    have hthere : (t.get? (current ++ [part])).isSome :=
      PathMap.isSome_of_isPrefix ⟨rest, by simp⟩ h
    rw [ensureDirs, EStateM.run_bind, unlessExists, EStateM.run_bind, run_ask, Tree.existsAt_eq,
      hthere]
    exact ih (current ++ [part]) (by simpa using h)

theorem run_ensureUpperParents_there (h : (fs.upper.get? p.dropLast).isSome) :
    (ensureUpperParents p : VfsM Stack Unit).run fs = .ok () fs :=
  run_onPart_eq_ok.mpr ⟨fs.upper, run_ensureDirs_there [] p.dropLast h, rfl⟩

/-- What starts with the parents of a blocked path is refused, if it is refused below a
file. -/
theorem Blocked.refuses {α : Type} {f : Unit → VfsM Stack α} (h : Blocked fs p)
    (hf : ∀ c, fs.upper.get? p.dropLast = some (.file c) → Refuses (f ()) fs) :
    Refuses (ensureUpperParents p >>= f) fs := by
  obtain ⟨q, c, hqp, hfile⟩ := h
  by_cases hparent : q = p.dropLast
  · subst hparent
    exact (hf c hfile).after (run_ensureUpperParents_there (by simp [hfile]))
  · exact (Refuses.onUpper (run_ensureDirs_blocked [] p.dropLast hqp hparent hfile)).bind f

theorem run_removeWhiteout_none (h : fs.upper.get? (whiteoutPath p) = none) :
    (removeWhiteout p : VfsM Stack Unit).run fs = .ok () fs := by
  refine run_onPart_eq_ok.mpr ⟨fs.upper, ?_, rfl⟩
  rw [whenExists, EStateM.run_bind, run_ask, Tree.existsAt_eq, h]
  rfl

/-- The marker is not removed when it is a directory. -/
theorem refuses_removeWhiteout (h : fs.upper.get? (whiteoutPath p) = some .dir) :
    Refuses (removeWhiteout p : VfsM Stack Unit) fs := by
  apply Refuses.onUpper
  refine Refuses.after (a := true) ?_ ⟨.ioError, ?_⟩
  · rw [run_ask, Tree.existsAt_eq, h]
    rfl
  · change Tree.removeFile (whiteoutPath p) fs.upper = _
    rw [Tree.removeFile, h]

/-- Below a file there is no marker. -/
theorem get?_whiteoutPath_of_file (h : t.get? p.dropLast = some (.file c)) :
    t.get? (whiteoutPath p) = none := by
  by_contra hne
  obtain ⟨n, hn⟩ := Option.ne_none_iff_exists'.mp hne
  have hparent := Tree.get?_parent (by simp [whiteoutPath]) hn
  rw [whiteoutPath, List.dropLast_concat, splitPath, h] at hparent
  cases hparent

/-- The common beginning of the methods that put an entry at a path: what follows is refused
below a file. -/
theorem Shut.refuses {α : Type} {x : VfsM Stack α} (h : Shut fs p)
    (hx : fs.upper.get? p.dropLast ≠ some .dir → Refuses x fs) :
    Refuses (do ensureUpperParents p; removeWhiteout p; x) fs := by
  rcases h with hblocked | hmarker
  · refine hblocked.refuses fun c hc => ?_
    exact (hx (by simp [hc])).after (run_removeWhiteout_none (get?_whiteoutPath_of_file hc))
  · have hparent := Tree.get?_parent (by simp [whiteoutPath]) hmarker
    rw [whiteoutPath, List.dropLast_concat, splitPath] at hparent
    refine Refuses.after (run_ensureUpperParents_there (by simp [hparent])) ?_
    exact (refuses_removeWhiteout hmarker).bind _

/-! ### The methods -/

namespace LayerFS

/-- The beginning changes nothing where the parents are there and no marker is. -/
theorem refuses_of_there {α : Type} {x : VfsM Stack α} (hparent : (fs.upper.get? p.dropLast).isSome)
    (hmarker : fs.upper.get? (whiteoutPath p) = none) (hx : Refuses x fs) :
    Refuses (do ensureUpperParents p; removeWhiteout p; x) fs :=
  Refuses.after (run_ensureUpperParents_there hparent)
    (Refuses.after (run_removeWhiteout_none hmarker) hx)

theorem isSome_parent {n : Node} (h : t.get? p = some n) : (t.get? p.dropLast).isSome :=
  PathMap.isSome_of_isPrefix (List.dropLast_prefix p) (by simp [h])

end LayerFS

/-! ### The methods

Each condition is on the layers before the call; the parent and the destination are looked up
in the merged view, as `VfsPath` does. -/

/-- When `create_dir` is refused. -/
def NoCreateDir (fs : Stack) (p : Path) : Prop :=
  view fs p.dropLast ≠ some .dir ∨ Shut fs p ∨
    fs.upper.get? (whiteoutPath p) = none ∧ fs.upper.get? p ≠ none

/-- When `create_file` is refused. -/
def NoCreateFile (fs : Stack) (p : Path) : Prop :=
  view fs p.dropLast ≠ some .dir ∨ Shut fs p ∨
    fs.upper.get? (whiteoutPath p) = none ∧ fs.upper.get? p = some .dir

/-- When `append_file` is refused. -/
def NoAppendFile (fs : Stack) (p : Path) : Prop :=
  fs.upper.get? p = some .dir ∨
    fs.upper.get? p = none ∧ (view fs p = none ∨ Blocked fs p)

/-- A whiteout is due and cannot be made. -/
def NoWhiteout (fs : Stack) (p : Path) : Prop :=
  fs.upper.get? p = none ∧ existsInLower p fs = true ∧ Blocked fs p

/-- When `remove_file` is refused. -/
def NoRemoveFile (fs : Stack) (p : Path) : Prop :=
  fs.upper.get? p = some .dir ∨ NoWhiteout fs p

/-- When `remove_dir` is refused: the entry is a file or has entries below it. The root of an
empty layer is not counted. -/
def NoRemoveDir (fs : Stack) (p : Path) : Prop :=
  (∃ c, fs.upper.get? p = some (.file c)) ∨
    fs.upper.get? p = some .dir ∧ fs.upper.children p ≠ [] ∨ NoWhiteout fs p

/-- When `copy_file` and `move_file` are refused. -/
def NoCopy (fs : Stack) (src dest : Path) : Prop :=
  view fs dest ≠ none ∨ (∀ c, view fs src ≠ some (.file c)) ∨ Shut fs dest

/-- When `move_dir` is refused. -/
def NoMoveDir (fs : Stack) (frames : Nat) (dest : Path) : Prop :=
  view fs dest ≠ none ∨ frames = 0 ∨ Shut fs dest

namespace Tree

theorem refuses_createDir (h : t.get? p ≠ none) :
    Refuses (FileSystem.createDir p : VfsM Tree Unit) t := by
  change Refuses (createDir p) t
  obtain ⟨n, hn⟩ := Option.ne_none_iff_exists'.mp h
  cases n with
  | dir => exact ⟨.directoryExists, by unfold EStateM.run createDir; rw [hn]⟩
  | file c => exact ⟨.fileExists, by unfold EStateM.run createDir; rw [hn]⟩

theorem refuses_createFile (h : t.get? p = some .dir) :
    Refuses (FileSystem.createFile p : VfsM Tree Writer) t :=
  ⟨.ioError, by change createFile p t = _; rw [createFile, h]⟩

theorem refuses_appendFile (h : t.get? p = some .dir) :
    Refuses (FileSystem.appendFile p : VfsM Tree Writer) t :=
  ⟨.ioError, by change appendFile p t = _; rw [appendFile, h]⟩

theorem refuses_removeFile (h : t.get? p = some .dir) :
    Refuses (FileSystem.removeFile p : VfsM Tree Unit) t :=
  ⟨.ioError, by change removeFile p t = _; rw [removeFile, h]⟩

theorem refuses_removeDir_file (h : t.get? p = some (.file c)) :
    Refuses (FileSystem.removeDir p : VfsM Tree Unit) t :=
  ⟨.ioError, by change removeDir p t = _; rw [removeDir, h]⟩

theorem refuses_removeDir (h : t.get? p = some .dir) (hp : t.children p ≠ []) :
    Refuses (FileSystem.removeDir p : VfsM Tree Unit) t := by
  refine ⟨.ioError, ?_⟩
  have hdrop : t.dropNode p = none := by
    rw [dropNode, dif_neg]
    exact fun hleaf => hp hleaf.2
  change removeDir p t = _
  rw [removeDir, h, hdrop]
  rfl

end Tree

theorem refuses_getParent {action : String} (h : view fs p.dropLast ≠ some .dir) :
    Refuses (ask (VfsPath.getParent action p) : VfsM Stack Unit) fs := by
  obtain ⟨e, he⟩ := getParent_ne_ok action h
  exact Refuses.ask he

theorem NoCreateDir.refuses (h : NoCreateDir fs p) :
    Refuses (VfsPath.createDir p : VfsM Stack Unit) fs := by
  rcases h with hparent | hshut | ⟨hmarker, hentry⟩
  · exact (refuses_getParent hparent).bind _
  · exact Refuses.ask_bind fun _ _ =>
      hshut.refuses fun hup => Refuses.onUpper (VfsPath.refuses_createDir hup)
  · obtain ⟨n, hn⟩ := Option.ne_none_iff_exists'.mp hentry
    refine Refuses.ask_bind fun _ _ => refuses_of_there (isSome_parent hn) hmarker ?_
    exact Refuses.onUpper (Refuses.ask_bind fun _ _ => Tree.refuses_createDir hentry)

theorem NoCreateFile.refuses (h : NoCreateFile fs p) :
    Refuses (VfsPath.createFile p : VfsM Stack Writer) fs := by
  rcases h with hparent | hshut | ⟨hmarker, hentry⟩
  · exact (refuses_getParent hparent).bind _
  · exact Refuses.ask_bind fun _ _ =>
      hshut.refuses fun hup => Refuses.onUpper (VfsPath.refuses_createFile hup)
  · refine Refuses.ask_bind fun _ _ => refuses_of_there (isSome_parent hentry) hmarker ?_
    exact Refuses.onUpper (Refuses.ask_bind fun _ _ => Tree.refuses_createFile hentry)

/-- Nothing is copied up to a blocked path. -/
theorem Blocked.refuses_copyUp (h : Blocked fs p) : Refuses (copyUp p : VfsM Stack Unit) fs := by
  refine Refuses.ask_bind fun source _ => h.refuses fun c hc => ?_
  have hparent : fs.upper.get? p.dropLast ≠ some .dir := by simp [hc]
  refine Refuses.ask_bind fun md _ => ?_
  split
  · exact Refuses.onUpper (VfsPath.refuses_createDir hparent)
  · refine Refuses.ask_bind fun reader _ => Refuses.ask_bind fun data _ => ?_
    exact (Refuses.onUpper (VfsPath.refuses_createFile hparent)).bind _

theorem NoAppendFile.refuses (h : NoAppendFile fs p) :
    Refuses (LayerFS.appendFile p : VfsM Stack Writer) fs := by
  refine Refuses.ask_bind fun there hthere => ?_
  rcases h with hdir | ⟨hnone, h⟩
  · rw [Tree.existsAt_eq, hdir] at hthere
    cases hthere
    exact Refuses.onUpper (Tree.refuses_appendFile hdir)
  · rw [Tree.existsAt_eq, hnone] at hthere
    cases hthere
    refine Refuses.ask_bind fun resolved hresolved => ?_
    cases resolved with
    | none => exact Refuses.throw _
    | some source =>
      rcases h with hview | hblocked
      · obtain ⟨r, hr, hsome, -⟩ := resolve_of_view fs p
        rw [hresolved] at hr
        cases hr
        rw [hview] at hsome
        cases hsome
      · exact hblocked.refuses_copyUp.bind _

theorem blocked_whiteoutPath_iff : Blocked fs (whiteoutPath p) ↔ Blocked fs p := by
  rw [Blocked, Blocked, whiteoutPath_dropLast]

/-- No whiteout is made below a file. -/
theorem Blocked.refuses_createWhiteout (h : Blocked fs p) :
    Refuses (createWhiteout p : VfsM Stack Unit) fs := by
  refine Blocked.refuses (blocked_whiteoutPath_iff.mpr h) fun c hc => ?_
  have hmissing : fs.upper.get? (whiteoutPath p) = none :=
    get?_whiteoutPath_of_file (whiteoutPath_dropLast p ▸ hc)
  apply Refuses.onUpper
  refine Refuses.ask_bind fun there hthere => ?_
  rw [Tree.existsAt_eq, hmissing] at hthere
  cases hthere
  exact (VfsPath.refuses_createFile (by simp [hc])).bind _

/-- What only a lower layer has cannot be removed where no whiteout can be made. -/
theorem NoWhiteout.refuses (h : NoWhiteout fs p) (removeUpper : Path → VfsM Tree Unit) :
    Refuses (removeWith removeUpper p : VfsM Stack Unit) fs := by
  obtain ⟨hnone, hlower, hblocked⟩ := h
  have hskip : (onUpper (whenExists p (removeUpper p)) : VfsM Stack Unit).run fs = .ok () fs := by
    refine run_onPart_eq_ok.mpr ⟨fs.upper, ?_, rfl⟩
    rw [whenExists, EStateM.run_bind, run_ask, Tree.existsAt_eq, hnone]
    rfl
  refine Refuses.after hskip (Refuses.ask_bind fun found hfound => ?_)
  rw [hlower] at hfound
  cases hfound
  exact hblocked.refuses_createWhiteout

/-- What cannot be removed from the upper layer. -/
theorem refuses_removeWith {removeUpper : Path → VfsM Tree Unit} (hentry : fs.upper.get? p ≠ none)
    (h : Refuses (removeUpper p) fs.upper) :
    Refuses (removeWith removeUpper p : VfsM Stack Unit) fs := by
  apply Refuses.bind
  apply Refuses.onUpper
  refine Refuses.ask_bind fun there hthere => ?_
  rw [Tree.existsAt_eq, Option.isSome_iff_ne_none.mpr hentry] at hthere
  cases hthere
  exact h

theorem NoRemoveFile.refuses (h : NoRemoveFile fs p) :
    Refuses (LayerFS.removeFile p : VfsM Stack Unit) fs := by
  rcases h with hdir | hno
  · exact refuses_removeWith (by simp [hdir]) (Tree.refuses_removeFile hdir)
  · exact hno.refuses _

theorem NoRemoveDir.refuses (h : NoRemoveDir fs p) :
    Refuses (LayerFS.removeDir p : VfsM Stack Unit) fs := by
  rcases h with ⟨c, hfile⟩ | ⟨hdir, hp⟩ | hno
  · exact refuses_removeWith (by simp [hfile]) (Tree.refuses_removeDir_file hfile)
  · exact refuses_removeWith (by simp [hdir]) (Tree.refuses_removeDir hdir hp)
  · exact hno.refuses _

theorem refuses_copyFile_layer (h : (∀ c, view fs src ≠ some (.file c)) ∨ Shut fs dest) :
    Refuses (LayerFS.copyFile src dest : VfsM Stack Unit) fs := by
  refine Refuses.ask_bind fun source hsource => Refuses.ask_bind fun reader hreader =>
    Refuses.ask_bind fun data hdata => ?_
  rcases h with hsrc | hshut
  · -- the content that was read is that of a file shown at the source
    have hcontent : contentAt fs src = .ok data := by
      obtain ⟨r, hr, hfound⟩ := except_bind_eq_ok.mp hsource
      change (do (← LayerFS.openFile src fs).readToEnd) = _
      rw [LayerFS.openFile, hr, ok_bind, hfound, ok_bind, hreader, ok_bind, hdata]
    exact absurd (contentAt_eq_ok_iff.mp hcontent) (hsrc data)
  · exact hshut.refuses fun hup => (Refuses.onUpper (VfsPath.refuses_createFile hup)).bind _

/-- A destination that is there, or a call that is refused. -/
theorem refuses_unlessThere {x : VfsM Stack Unit} (h : view fs dest ≠ none ∨ Refuses x fs) :
    Refuses (do
      if ← ask fun fs : Stack => existsAt fs dest then throw (.other "Destination exists already")
      else x : VfsM Stack Unit) fs := by
  refine Refuses.ask_bind fun there hthere => ?_
  cases there with
  | true => exact Refuses.throw _
  | false =>
    refine h.resolve_left fun hview => ?_
    have hfound : existsAt fs dest = .ok (view fs dest).isSome := LayerFS.existsAt_eq fs dest
    rw [hfound, Option.isSome_iff_ne_none.mpr hview] at hthere
    cases hthere

theorem NoCopy.refuses_copyFile (h : NoCopy fs src dest) :
    Refuses (VfsPath.copyFile src dest : VfsM Stack Unit) fs :=
  refuses_unlessThere (h.imp_right refuses_copyFile_layer)

theorem NoCopy.refuses_moveFile (h : NoCopy fs src dest) :
    Refuses (VfsPath.moveFile src dest : VfsM Stack Unit) fs :=
  refuses_unlessThere (h.imp_right fun h => (refuses_copyFile_layer h).bind _)

theorem NoMoveDir.refuses {frames : Nat} (h : NoMoveDir fs frames dest) :
    Refuses (VfsPath.moveDir frames src dest : VfsM Stack Unit) fs := by
  refine refuses_unlessThere (h.imp_right fun h => Refuses.bind ?_ _)
  cases frames with
  | zero => exact Refuses.throw _
  | succ frames =>
    have hshut : Shut fs dest := h.resolve_left (Nat.succ_ne_zero _)
    refine hshut.refuses fun hup => Refuses.bind (Refuses.onUpper ?_) _
    refine Refuses.ask_bind fun there hthere => ?_
    -- what has no directory above it is not there
    have hmissing : fs.upper.get? dest = none := by
      by_contra hne
      obtain ⟨n, hn⟩ := Option.ne_none_iff_exists'.mp hne
      by_cases hroot : dest = []
      · subst hroot
        exact hup (Tree.get?_root _)
      · exact hup (Tree.get?_parent hroot hn)
    rw [Tree.existsAt_eq, hmissing] at hthere
    cases hthere
    exact VfsPath.refuses_createDir hup

end Rspacefs
