import Rspacefs.Core.Effects
import Rspacefs.Vfs.Local

/-!
# Creating a file that is there

A handle writes its buffer back with `create_file` on a path that shows a file. The
call can fail: the overlay asks for the parent on the merged view, and makes the
missing parents in the upper layer, where a file may stand in the way. When neither
happens the call succeeds, and it succeeds again afterwards; when one of them does, it
fails and changes nothing.

## Main definitions

* `CanCreate` — what `create_file` needs at a path that shows a file

## Main results

* `CanCreate.run_createFile` — under `CanCreate` the call returns a writer on an empty file
* `run_createFile_blocked` — without it the call changes nothing
* `CanCreate.of_placed` — what the call leaves is a path where it can be made again
-/

namespace Rspacefs

open Lib LayerFS

variable {t : Tree} {fs fs' : Stack} {p q : Path} {c d : Bytes}

/-- The content of a path is that of the file shown there. -/
theorem contentAt_eq_ok_iff : contentAt fs p = .ok c ↔ view fs p = some (.file c) := by
  change (do (← LayerFS.openFile p fs).readToEnd) = _ ↔ _
  rw [LayerFS.openFile_eq]
  cases view fs p with
  | none => simp [bind, Except.bind]
  | some n => cases n <;> simp [Node.reader, bind, Except.bind]

/-- A file is shown at `p`, its parent is shown as a directory, and no regular file of
the upper layer stands above it. -/
structure CanCreate (fs : Stack) (p : Path) : Prop where
  parent : view fs p.dropLast = some .dir
  noFile : ∀ q b, q <+: p → q ≠ p → fs.upper.get? q ≠ some (.file b)
  entry : ∃ c, view fs p = some (.file c)

theorem ne_nil_of_view_file (h : view fs p = some (.file c)) : p ≠ [] := by
  rintro rfl
  rw [view_of_upper (hides_of_view h) (Tree.get?_root _)] at h
  cases h

namespace CanCreate

theorem ne_nil (h : CanCreate fs p) : p ≠ [] :=
  h.entry.elim fun _ => ne_nil_of_view_file

theorem hides (h : CanCreate fs p) : fs.upper.hides p = false :=
  h.entry.elim fun _ => hides_of_view

end CanCreate

/-! ### The call succeeds -/

namespace VfsPath

theorem run_createDir (hne : p ≠ []) (hnone : t.get? p = none)
    (hparent : t.get? p.dropLast = some .dir) :
    ∃ t', (VfsPath.createDir p : VfsM Tree Unit).run t = .ok () t' := by
  obtain ⟨t', ht'⟩ := Tree.setNode_isSome (n := .dir) hne hparent (Or.inl rfl)
  refine ⟨t', run_bind_eq_ok.mpr ⟨(), t, ?_, ?_⟩⟩
  · rw [run_ask_eq_ok]
    refine ⟨?_, rfl⟩
    simp [getParent, hparent, Tree.metadata_of_some hparent, Node.fileType, bind, Except.bind,
      pure, Except.pure]
  · change Tree.createDir p t = _
    rw [Tree.createDir, hnone, ht']
    rfl

theorem run_createFile (hne : p ≠ []) (hdir : t.get? p ≠ some .dir)
    (hparent : t.get? p.dropLast = some .dir) :
    ∃ t', (VfsPath.createFile p : VfsM Tree Writer).run t = .ok ⟨p, 0⟩ t' := by
  obtain ⟨t', ht'⟩ := Tree.setNode_isSome (n := .file []) hne hparent (Or.inr hdir)
  refine ⟨t', run_bind_eq_ok.mpr ⟨(), t, ?_, ?_⟩⟩
  · rw [run_ask_eq_ok]
    refine ⟨?_, rfl⟩
    simp [getParent, hparent, Tree.metadata_of_some hparent, Node.fileType, bind, Except.bind,
      pure, Except.pure]
  · change Tree.createFile p t = _
    unfold Tree.createFile
    split
    · exact absurd ‹_› hdir
    · rw [ht']
      rfl

end VfsPath

/-- Where no file stands in the way, the missing directories are made. -/
theorem run_ensureDirs (current : Path) (parts : List Name) (hcurrent : t.get? current = some .dir)
    (hfree : ∀ r b, r <+: parts → t.get? (current ++ r) ≠ some (.file b)) :
    ∃ t', (ensureDirs current parts : VfsM Tree Unit).run t = .ok () t' ∧
      t'.get? (current ++ parts) = some .dir := by
  induction parts generalizing t current with
  | nil => exact ⟨t, rfl, by simpa using hcurrent⟩
  | cons part rest ih =>
    -- the first directory is there, or is made
    have hfirst : ∃ t₁, (unlessExists (current ++ [part]) (VfsPath.createDir (current ++ [part])) :
        VfsM Tree Unit).run t = .ok () t₁ ∧ t₁.get? (current ++ [part]) = some .dir ∧
        ∀ q, q ≠ current ++ [part] → t₁.get? q = t.get? q := by
      cases hpart : t.get? (current ++ [part]) with
      | some n =>
        have hdir : n = .dir := by
          cases n with
          | dir => rfl
          | file b => exact absurd hpart (hfree [part] b (by simp))
        exact ⟨t, by simp [unlessExists, run_ask, hpart], by rw [hpart, hdir], fun _ _ => rfl⟩
      | none =>
        obtain ⟨t₁, ht₁⟩ := VfsPath.run_createDir (p := current ++ [part]) (by simp) hpart
          (by simpa using hcurrent)
        obtain ⟨-, -, -, hget⟩ := (VfsPath.createDir_spec t (current ++ [part])).ok rfl ht₁
        refine ⟨t₁, by simpa [unlessExists, run_ask, hpart] using ht₁, by simp [hget], ?_⟩
        exact fun q hq => by rw [hget, Function.update_of_ne hq]
    obtain ⟨t₁, hrun, hdir, hother⟩ := hfirst
    obtain ⟨t', hrest, hend⟩ := ih (t := t₁) (current ++ [part]) hdir fun r b hr => by
      by_cases hnil : r = []
      · subst hnil
        simp [hdir]
      · rw [hother _ (by simpa using hnil)]
        simpa using hfree (part :: r) b (List.cons_prefix_cons.mpr ⟨rfl, hr⟩)
    refine ⟨t', run_bind_eq_ok.mpr ⟨(), t₁, hrun, hrest⟩, ?_⟩
    simpa using hend

theorem getParent_eq_ok {action : String} (h : view fs p.dropLast = some .dir) :
    VfsPath.getParent action p fs = .ok () := by
  have hexists : existsAt fs p.dropLast = .ok true := by
    change LayerFS.existsAt p.dropLast fs = _
    rw [LayerFS.existsAt_eq, h]
    rfl
  have hmeta : metadata fs p.dropLast = .ok ⟨.directory, 0⟩ := by
    change LayerFS.metadata p.dropLast fs = _
    rw [LayerFS.metadata_eq, h]
    rfl
  simp [VfsPath.getParent, hexists, hmeta, bind, Except.bind, pure, Except.pure]

/-- Under `CanCreate` the call returns a writer on an empty file. -/
theorem CanCreate.run_createFile (h : CanCreate fs p) :
    ∃ fs', (VfsPath.createFile p : VfsM Stack Writer).run fs = .ok ⟨p, 0⟩ fs' ∧
      Placed fs fs' p (.file []) := by
  have hfree : ∀ r b, r <+: p.dropLast → fs.upper.get? ([] ++ r) ≠ some (.file b) :=
    fun r b hr => h.noFile r b (hr.trans (List.dropLast_prefix p))
      fun he => not_prefix_dropLast h.ne_nil (he ▸ hr)
  obtain ⟨u, hu, hparent⟩ := run_ensureDirs [] p.dropLast (Tree.get?_root _) hfree
  have hgrow : Grows fs.upper u p := ((ensureDirs_spec fs.upper [] p.dropLast p (by simp)).ok rfl hu).1
  -- no marker hides the path, and the parents made above do not change that
  have hmark : u.get? (whiteoutPath p) = none :=
    hgrow.whiteoutPath.trans (Tree.hides_eq_false.mp h.hides)
  have hdir : u.get? p ≠ some .dir := by
    rw [hgrow.of_not_prefix (not_prefix_dropLast h.ne_nil)]
    intro hupper
    obtain ⟨c, hc⟩ := h.entry
    rw [view_of_upper h.hides hupper] at hc
    cases hc
  obtain ⟨u', hu'⟩ := VfsPath.run_createFile h.ne_nil hdir (by simpa using hparent)
  have hcreate : (LayerFS.createFile p : VfsM Stack Writer).run fs =
      .ok ⟨p, 0⟩ { fs with upper := u' } := by
    refine run_bind_eq_ok.mpr ⟨(), { fs with upper := u }, run_onPart_eq_ok.mpr ⟨u, hu, rfl⟩, ?_⟩
    refine run_bind_eq_ok.mpr ⟨(), { fs with upper := u }, run_onPart_eq_ok.mpr ⟨u, ?_, rfl⟩, ?_⟩
    · simp [whenExists, run_ask, hmark]
    · exact run_onPart_eq_ok.mpr ⟨u', hu', rfl⟩
  refine ⟨{ fs with upper := u' }, run_bind_eq_ok.mpr ⟨(), fs, ?_, hcreate⟩,
    ((createFile_spec fs p).ok rfl hcreate).2⟩
  exact run_ask_eq_ok.mpr ⟨getParent_eq_ok h.parent, rfl⟩

/-! ### The call fails -/

namespace VfsPath

theorem run_createDir_below_file {n : Name} (hfile : t.get? p = some (.file c)) :
    ∃ e, (VfsPath.createDir (p ++ [n]) : VfsM Tree Unit).run t = .error e t := by
  have hparent : getParent "create directory" (p ++ [n]) t =
      .error (.other "Could not create directory, parent path is not a directory") := by
    simp [getParent, hfile, Tree.metadata_of_some hfile, Node.fileType, bind, Except.bind,
      throw, throwThe, MonadExceptOf.throw]
  exact ⟨_, by rw [VfsPath.createDir, EStateM.run_bind, run_ask, hparent]⟩

end VfsPath

/-- Where a file stands in the way, no directory is made. -/
theorem run_ensureDirs_blocked (current : Path) (parts : List Name) {r : List Name}
    (hr : r <+: parts) (hne : r ≠ parts) (hfile : t.get? (current ++ r) = some (.file c)) :
    ∃ e, (ensureDirs current parts : VfsM Tree Unit).run t = .error e t := by
  induction parts generalizing current r with
  | nil => exact absurd (List.prefix_nil.mp hr) hne
  | cons part rest ih =>
    cases r with
    | nil =>
      -- the file is the parent of the first directory
      rw [List.append_nil] at hfile
      have hnone : t.get? (current ++ [part]) = none :=
        PathMap.children_eq_nil.mp (Tree.children_of_file hfile) part
      obtain ⟨e, he⟩ := VfsPath.run_createDir_below_file (n := part) hfile
      refine ⟨e, ?_⟩
      rw [ensureDirs, EStateM.run_bind, unlessExists, EStateM.run_bind, run_ask,
        Tree.existsAt_eq, hnone]
      simp [he]
    | cons x r =>
      obtain ⟨rfl, hr'⟩ := List.cons_prefix_cons.mp hr
      have hsome : (t.get? (current ++ [x])).isSome := by
        by_cases hnil : r = []
        · subst hnil
          simp [hfile]
        · rw [Tree.get?_of_isPrefix (p := current ++ x :: r) (by simp) (by simpa using hnil) hfile]
          rfl
      obtain ⟨e, he⟩ := ih (current ++ [x]) hr' (by simpa using hne) (by simpa using hfile)
      refine ⟨e, ?_⟩
      rw [ensureDirs, EStateM.run_bind, unlessExists, EStateM.run_bind, run_ask,
        Tree.existsAt_eq, hsome]
      simpa using he

theorem getParent_ne_ok (action : String) (h : view fs p.dropLast ≠ some .dir) :
    ∃ e, VfsPath.getParent action p fs = .error e := by
  have hexists : existsAt fs p.dropLast = .ok (view fs p.dropLast).isSome :=
    LayerFS.existsAt_eq fs p.dropLast
  have hmeta : metadata fs p.dropLast = _ := LayerFS.metadata_eq fs p.dropLast
  rw [VfsPath.getParent, hexists, hmeta]
  cases hview : view fs p.dropLast with
  | none => exact ⟨_, rfl⟩
  | some n =>
    cases n with
    | dir => exact absurd hview h
    | file c => exact ⟨_, rfl⟩

/-- Where a file is shown that cannot be created, the call changes nothing. -/
theorem run_createFile_blocked (hview : view fs p = some (.file c)) (h : ¬ CanCreate fs p) :
    ∃ e, (VfsPath.createFile p : VfsM Stack Writer).run fs = .error e fs := by
  by_cases hparent : view fs p.dropLast = some .dir
  · have hfile : ∃ q b, q <+: p ∧ q ≠ p ∧ fs.upper.get? q = some (.file b) := by
      by_contra hnone
      refine h ⟨hparent, fun q b hq hne hb => hnone ⟨q, b, hq, hne, hb⟩, c, hview⟩
    obtain ⟨q, b, hq, hne, hb⟩ := hfile
    have hqp : q <+: p.dropLast := prefix_dropLast_of_ne hq hne
    have hqne : q ≠ p.dropLast := by
      rintro rfl
      rw [view_of_upper (hides_of_view hparent) hb] at hparent
      cases hparent
    obtain ⟨e, he⟩ := run_ensureDirs_blocked [] p.dropLast hqp hqne hb
    have hupper : (ensureUpperParents p : VfsM Stack Unit).run fs = .error e fs := by
      rw [ensureUpperParents, onUpper, run_onPart, he]
    refine ⟨e, ?_⟩
    rw [VfsPath.createFile, EStateM.run_bind, run_ask, getParent_eq_ok hparent]
    change (LayerFS.createFile p : VfsM Stack Writer).run fs = _
    rw [LayerFS.createFile, EStateM.run_bind, hupper]
  · obtain ⟨e, he⟩ := getParent_ne_ok _ hparent
    exact ⟨e, by rw [VfsPath.createFile, EStateM.run_bind, run_ask, he]⟩

/-! ### And succeeds again -/

namespace Placed

/-- What was placed is what is shown. -/
theorem view_eq {n : Node} (h : Placed fs fs' p n) : view fs' p = some n :=
  view_of_upper (Tree.hides_eq_false.mpr h.marker) h.entry

theorem contentAt_eq (h : Placed fs fs' p (.file c)) : contentAt fs' p = .ok c :=
  contentAt_eq_ok_iff.mpr h.view_eq

/-- The whole file written through the writer that `create_file` returned. -/
theorem run_writeAll (h : Placed fs fs' p (.file [])) (bytes : Bytes) :
    ∃ fs'', (FileSystem.writeAll ⟨p, 0⟩ bytes : VfsM Stack Unit).run fs' = .ok () fs'' ∧
      Placed fs fs'' p (.file bytes) := by
  have hparent : fs'.upper.get? p.dropLast = some .dir := Tree.get?_parent h.ne_nil h.entry
  obtain ⟨u, hu⟩ := Tree.setNode_isSome (n := .file (splice [] 0 bytes)) h.ne_nil hparent
    (Or.inr (by rw [h.entry]; simp))
  have hrun : (FileSystem.writeAll ⟨p, 0⟩ bytes : VfsM Tree Unit).run fs'.upper = .ok () u := by
    change Tree.writeAll ⟨p, 0⟩ bytes fs'.upper = _
    rw [Tree.writeAll]
    simp only [h.entry, hu]
    rfl
  have hstack : (onUpper (FileSystem.writeAll ⟨p, 0⟩ bytes) : VfsM Stack Unit).run fs' =
      .ok () { fs' with upper := u } := run_onPart_eq_ok.mpr ⟨u, hrun, rfl⟩
  exact ⟨_, hstack, by simpa using (h.writeAll 0 bytes).ok rfl hstack⟩

end Placed

theorem length_whiteoutPath (hp : p ≠ []) : (whiteoutPath p).length = p.length := by
  obtain ⟨d, n, rfl⟩ := (List.eq_nil_or_concat' p).resolve_left hp
  simp

namespace CanCreate

/-- What hides the parent is not what the call changes. -/
theorem whiteoutPath_parent (h : CanCreate fs p) (hne : p ≠ whiteoutPath [])
    (hplaced : Placed fs fs' p (.file c)) : fs'.upper.get? (whiteoutPath p.dropLast) = none := by
  have hbefore : fs.upper.get? (whiteoutPath p.dropLast) = none :=
    Tree.hides_eq_false.mp (hides_of_view h.parent)
  by_cases hroot : p.dropLast = []
  · -- below the root, the marker of the root is a name like any other
    by_cases hmark : whiteoutPath p.dropLast = whiteoutPath p
    · rw [hmark]
      exact hplaced.marker
    rw [hroot] at hbefore hmark ⊢
    rcases hplaced.touched _ hne.symm hmark with he | ⟨-, -, -, hpre⟩
    · rw [he, hbefore]
    · rw [hroot] at hpre
      exact absurd (List.prefix_nil.mp hpre) (by simp [whiteoutPath])
  · have hlen := length_whiteoutPath hroot
    have hpos := List.length_pos_of_ne_nil h.ne_nil
    have hshort : (whiteoutPath p.dropLast).length < p.length := by
      rw [hlen, List.length_dropLast]
      omega
    have hself : whiteoutPath p.dropLast ≠ p := fun he => by
      rw [he] at hshort
      omega
    have hmark : whiteoutPath p.dropLast ≠ whiteoutPath p := fun he => by
      rw [he, length_whiteoutPath h.ne_nil] at hshort
      omega
    rcases hplaced.touched _ hself hmark with he | ⟨-, -, -, hpre⟩
    · rw [he, hbefore]
    · exact absurd (hpre.eq_of_length hlen) (whiteoutPath_ne hroot)

/-- Where a file was placed, it can be placed again, unless it hides the root. -/
theorem of_placed (h : CanCreate fs p) (hne : p ≠ whiteoutPath [])
    (hplaced : Placed fs fs' p (.file c)) : CanCreate fs' p where
  parent := view_of_upper (Tree.hides_eq_false.mpr (h.whiteoutPath_parent hne hplaced))
    (Tree.get?_parent h.ne_nil hplaced.entry)
  noFile q b hq hne hfile := by
    rw [Tree.get?_of_isPrefix hq hne hplaced.entry] at hfile
    cases hfile
  entry := ⟨c, hplaced.view_eq⟩

end CanCreate

end Rspacefs
