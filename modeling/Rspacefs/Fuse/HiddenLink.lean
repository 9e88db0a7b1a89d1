import Rspacefs.Fuse.Rename
import Rspacefs.Fuse.RenameLink

/-!
# Renaming a link onto a hidden one

What a rename copies, it writes through whatever the upper layer has at the new name. Where that
is a link with the same target, which a whiteout hid, and both links lead to files with the same
content, the copy changes nothing: the whiteout and the old link go, and a client sees the link
moved. So a rename of a link to a file can come out right, by what a whiteout hid.

## Main definitions

* `LeadsTo` — a path leads to a file
* `HiddenTwin` — the new name hides a link like the old one

## Main results

* `HiddenTwin.run_moveFile` — what the move leaves in the upper layer
* `movesLink_onto_hidden` — a link is moved at most to a name that hides one, and is moved if that
  is its twin
-/

namespace Rspacefs.Fuse

open Lib LayerFS DiskTree

variable {t u : DiskTree} {fs : LayerFS DiskTree DiskTree} {src dst p q mark : Path}
  {target : Target} {c : Bytes}

/-- Behind links, the path leads to a file with these bytes, other than `mark`. -/
def LeadsTo (t : DiskTree) (p mark : Path) (c : Bytes) : Prop :=
  ∃ r, t.place true p = some r ∧ r ≠ mark ∧ t.get? r = some (.file (some c))

/-- The upper layer has the link `src`, and behind the whiteout of `dst` a link `dst` with the
same target; both lead to files with the same bytes. No marker is a link, and the lower layers
that have an entry at `src` do not keep it from being whited out. -/
structure HiddenTwin (fs : LayerFS DiskTree DiskTree) (src dst : Path) (target : Target) :
    Prop where
  plain_src : PlainPath src
  plain_dst : PlainPath dst
  old : fs.upper.get? src = some (.link target)
  new : fs.upper.get? dst = some (.link target)
  mark : ∃ content, fs.upper.get? (whiteoutPath dst) = some (.file content)
  markers : ∀ d n link, IsMarker n → fs.upper.get? (d ++ [n]) ≠ some (.link link)
  same : ∃ c, LeadsTo fs.upper src (whiteoutPath dst) c ∧ LeadsTo fs.upper dst (whiteoutPath dst) c
  goes : (∃ l ∈ fs.lower, existsAt l src = .ok true) ∨ ∀ l ∈ fs.lower, symlinkMetadata l src = none

/-- What the move leaves in the upper layer `u`: both whiteouts apart, only `src` is gone. -/
structure TwinLeft (fs : LayerFS DiskTree DiskTree) (src dst : Path) (u : DiskTree) : Prop where
  others : ∀ q, q ≠ src → q ≠ whiteoutPath src → q ≠ whiteoutPath dst →
    u.get? q = fs.upper.get? q
  old : u.get? src = none
  unhidden : u.get? (whiteoutPath dst) = none
  noLink : ∀ link, u.get? (whiteoutPath src) ≠ some (.link link)
  gone : (u.get? (whiteoutPath src)).isSome ∨ ∀ l ∈ fs.lower, symlinkMetadata l src = none

/-! ### Calls on the upper layer -/

/-- A call on the upper layer that returns. -/
theorem run_onUpper {α : Type} {x : VfsM DiskTree α} {a : α} {lower : List DiskTree}
    (h : x.run t = .ok a u) : (onUpper x).run (⟨t, lower⟩ : LayerFS DiskTree DiskTree) =
      .ok a ⟨u, lower⟩ :=
  run_onPart_eq_ok.mpr ⟨u, h, rfl⟩

theorem run_ensureDirs_dir (current : Path) (parts : List Name)
    (h : t.get? (current ++ parts) = some .dir) :
    (ensureDirs current parts : VfsM DiskTree Unit).run t = .ok () t := by
  induction parts generalizing current with
  | nil => rfl
  | cons part rest ih =>
    have hdir : t.get? (current ++ [part]) = some .dir := by
      by_cases hrest : rest = []
      · rw [hrest] at h
        exact h
      · have hprefix : current ++ [part] <+: current ++ part :: rest := ⟨rest, by simp⟩
        exact get?_above hprefix (by simpa using Ne.symm hrest) (by rw [h]; rfl)
    rw [ensureDirs, EStateM.run_bind, unlessExists, EStateM.run_bind, run_ask, existsAt_nodeAt,
      nodeAt_of_straight (noLinkAlong_of_dir hdir), hdir]
    exact ih (current ++ [part]) (by simpa using h)

/-- The parents of an entry are there. -/
theorem run_ensureParents {lower : List DiskTree} (h : t.get? p.dropLast = some .dir) :
    (ensureUpperParents p).run (⟨t, lower⟩ : LayerFS DiskTree DiskTree) = .ok () ⟨t, lower⟩ :=
  run_onUpper (run_ensureDirs_dir [] p.dropLast h)

/-- `if path.exists()? { remove_file }`, where a file or a link leads to something. -/
theorem run_whenExists_removeFile {n : DiskNode} (h : t.get? p = some n) (hn : n ≠ .dir)
    (hthere : (t.nodeAt true p).isSome) :
    ∃ t', (whenExists p (FileSystem.removeFile p) : VfsM DiskTree Unit).run t = .ok () t' ∧
      t'.get? = Function.update t.get? p none := by
  obtain ⟨t', hrun, hget⟩ := DiskTree.run_removeFile h hn
  refine ⟨t', ?_, hget⟩
  rw [whenExists, EStateM.run_bind, run_ask, existsAt_nodeAt, hthere]
  exact hrun

/-! ### Where links lead afterwards -/

/-- Removing a file that is not where a path leads changes nothing for that path. -/
theorem LeadsTo.of_removed {content : Option Bytes} (h : LeadsTo t p mark c)
    (hmark : t.get? mark = some (.file content)) (hu : u.get? = Function.update t.get? mark none) :
    LeadsTo u p mark c := by
  obtain ⟨r, hplace, hne, hr⟩ := h
  refine ⟨r, ?_, hne, ?_⟩
  · rw [place_of_stop hu (by rw [hmark]; rfl) rfl, hplace]
  · rw [hu, Function.update_of_ne hne, hr]

theorem LeadsTo.nodeAt (h : LeadsTo t p mark c) : t.nodeAt true p = some (.file (some c)) := by
  obtain ⟨r, hplace, -, hr⟩ := h
  rw [DiskTree.nodeAt, hplace, Option.bind_some, hr]

/-- Writing to a file what is in it leaves the tree as it is. -/
theorem LeadsTo.run_overwrite (h : LeadsTo t p mark c) (lower : List DiskTree)
    (hparent : t.get? p.dropLast = some .dir) :
    ∃ t', (do
        let writer ← onUpper (VfsPath.createFile p)
        onUpper (FileSystem.writeAll writer c)).run (⟨t, lower⟩ : LayerFS DiskTree DiskTree) =
          .ok () ⟨t', lower⟩ ∧ t'.get? = t.get? := by
  obtain ⟨r, hplace, -, hr⟩ := h
  have hne : r ≠ [] := by
    rintro rfl
    cases hr.symm.trans t.get?_root
  obtain ⟨t₁, hcreate, hget₁⟩ := DiskTree.run_createFile hne hparent hplace
    (get?_dropLast hne (by rw [hr]; rfl)) (Or.inr ⟨c, hr⟩)
  have hplace₁ : t₁.place true p = some r := by
    rw [place_of_stop hget₁ (by rw [hr]; rfl) rfl, hplace]
  have hr₁ : t₁.get? r = some (.file (some [])) := by rw [hget₁, Function.update_self]
  obtain ⟨t', hwrite, hget⟩ := DiskTree.run_writeAll (i := 0) hplace₁ hr₁ c
  refine ⟨t', run_bind_eq_ok.mpr ⟨_, _, run_onUpper hcreate, run_onUpper hwrite⟩, ?_⟩
  rw [hget, splice_nil, hget₁, Function.update_idem, ← hr, Function.update_eq_self]

/-! ### The move -/

/-- Next to an entry, a path that is no link is found where it says. -/
theorem nodeAt_beside {follow : Bool} (h : t.get? p.dropLast = some .dir)
    (hp : ∀ link, t.get? p ≠ some (.link link)) : t.nodeAt follow p = t.get? p :=
  nodeAt_of_straight (noLinkAlong_of_dropLast (noLinkAlong_of_dir h) hp)

/-- The whiteout of a path is next to it. -/
theorem nodeAt_whiteoutPath {follow : Bool} (h : t.get? p.dropLast = some .dir)
    (hp : ∀ link, t.get? (whiteoutPath p) ≠ some (.link link)) :
    t.nodeAt follow (whiteoutPath p) = t.get? (whiteoutPath p) :=
  nodeAt_beside (by rwa [whiteoutPath_dropLast]) hp

theorem existsInLower_iff :
    existsInLower p fs = true ↔ ∃ l ∈ fs.lower, existsAt l p = .ok true := by
  have hfound : ∀ l : DiskTree, unwrapOr false (existsAt l p) = true ↔ existsAt l p = .ok true := by
    intro l
    rw [existsAt_nodeAt, unwrapOr_ok, Except.ok.injEq]
  rw [existsInLower, List.any_eq_true]
  exact exists_congr fun l => and_congr_right fun _ => hfound l

/-- The whiteout of a path that has none is made. -/
theorem run_createWhiteout (lower : List DiskTree) (hparent : t.get? p.dropLast = some .dir)
    (hnone : t.get? (whiteoutPath p) = none) :
    ∃ t', (createWhiteout p).run (⟨t, lower⟩ : LayerFS DiskTree DiskTree) = .ok () ⟨t', lower⟩ ∧
      t'.get? = Function.update t.get? (whiteoutPath p) (some (.file (some []))) := by
  have hnolink : ∀ link, t.get? (whiteoutPath p) ≠ some (.link link) := by simp [hnone]
  have hparent' : t.get? (whiteoutPath p).dropLast = some .dir := by rwa [whiteoutPath_dropLast]
  have hplace : t.place true (whiteoutPath p) = some (whiteoutPath p) := by
    rw [place_of_straight (noLinkAlong_of_dropLast (noLinkAlong_of_dir hparent') hnolink),
      place_of_parent hparent']
  obtain ⟨t', hrun, hget⟩ := DiskTree.run_createFile (by simp [whiteoutPath]) hparent' hplace hparent'
    (Or.inl hnone)
  refine ⟨t', run_bind_eq_ok.mpr ⟨(), _, run_ensureParents hparent', run_onUpper ?_⟩, hget⟩
  rw [unlessExists, EStateM.run_bind, run_ask, existsAt_nodeAt, nodeAt_whiteoutPath hparent hnolink,
    hnone]
  exact run_bind_eq_ok.mpr ⟨_, _, hrun, rfl⟩

namespace HiddenTwin

variable (h : HiddenTwin fs src dst target)
include h

theorem src_ne_nil : src ≠ [] := by
  rintro rfl
  cases h.old.symm.trans fs.upper.get?_root

theorem dst_ne_nil : dst ≠ [] := by
  rintro rfl
  cases h.new.symm.trans fs.upper.get?_root

theorem src_parent : fs.upper.get? src.dropLast = some .dir :=
  get?_dropLast h.src_ne_nil (by rw [h.old]; rfl)

theorem dst_parent : fs.upper.get? dst.dropLast = some .dir :=
  get?_dropLast h.dst_ne_nil (by rw [h.new]; rfl)

/-- The whiteout hides `dst`. -/
theorem existsAt_dst : LayerFS.existsAt dst fs = .ok false := by
  obtain ⟨content, hmark⟩ := h.mark
  have hhidden : isWhiteout dst fs.upper = .ok true := by
    rw [isWhiteout, existsAt_nodeAt, nodeAt_whiteoutPath h.dst_parent (by simp [hmark]), hmark]
    rfl
  rw [LayerFS.existsAt, LayerFS.resolve, hhidden]
  rfl

/-- The overlay takes `src` for the file it leads to in the upper layer. -/
theorem resolve_src (hunmarked : fs.upper.get? (whiteoutPath src) = none) :
    LayerFS.resolve src fs = .ok (some .upper) := by
  obtain ⟨c, hc, -⟩ := h.same
  have hshown : isWhiteout src fs.upper = .ok false := by
    rw [isWhiteout, existsAt_nodeAt, nodeAt_whiteoutPath h.src_parent (by simp [hunmarked]),
      hunmarked]
    rfl
  have hthere : FileSystem.existsAt fs.upper src = .ok true := by
    rw [existsAt_nodeAt, hc.nodeAt]
    rfl
  rw [LayerFS.resolve, hshown, ok_bind, hthere]
  rfl

/-- The copy drops the whiteout of `dst`, and nothing else comes of it. -/
theorem run_copyFile (hunmarked : fs.upper.get? (whiteoutPath src) = none) :
    ∃ u, (LayerFS.copyFile src dst).run fs = .ok () ⟨u, fs.lower⟩ ∧
      u.get? = Function.update fs.upper.get? (whiteoutPath dst) none := by
  obtain ⟨content, hmark⟩ := h.mark
  obtain ⟨c, hsrc, hdst⟩ := h.same
  have hopen : FileSystem.openFile fs.upper src = .ok ⟨.ok c⟩ := by
    change DiskTree.openFile fs.upper src = _
    rw [DiskTree.openFile, hsrc.nodeAt]
    rfl
  have hthere : (fs.upper.nodeAt true (whiteoutPath dst)).isSome := by
    rw [nodeAt_whiteoutPath h.dst_parent (by simp [hmark]), hmark]
    rfl
  obtain ⟨u₁, hremove, hget₁⟩ := run_whenExists_removeFile hmark (by simp) hthere
  have hparent₁ : u₁.get? dst.dropLast = some .dir := by
    have hne : dst.dropLast ≠ whiteoutPath dst := by
      intro heq
      rw [← heq, h.dst_parent] at hmark
      cases hmark
    rw [hget₁, Function.update_of_ne hne, h.dst_parent]
  obtain ⟨u, hwrite, hget⟩ := (hdst.of_removed hmark hget₁).run_overwrite fs.lower hparent₁
  refine ⟨u, ?_, hget.trans hget₁⟩
  rw [LayerFS.copyFile]
  refine run_bind_eq_ok.mpr ⟨.upper, fs, run_ask_eq_ok.mpr ⟨?_, rfl⟩, ?_⟩
  · rw [h.resolve_src hunmarked]
    rfl
  refine run_bind_eq_ok.mpr ⟨⟨.ok c⟩, fs, run_ask_eq_ok.mpr ⟨hopen, rfl⟩, ?_⟩
  refine run_bind_eq_ok.mpr ⟨c, fs, run_ask_eq_ok.mpr ⟨rfl, rfl⟩, ?_⟩
  refine run_bind_eq_ok.mpr ⟨(), fs, run_ensureParents h.dst_parent, ?_⟩
  exact run_bind_eq_ok.mpr ⟨(), ⟨u₁, fs.lower⟩, run_onUpper hremove, hwrite⟩

/-- A client's path is no whiteout. -/
theorem src_ne_mark : src ≠ whiteoutPath q := h.plain_src.unmarked.ne_whiteoutPath

/-- Then the old link goes, and is whited out where a lower layer has it. -/
theorem run_removeFile (hunmarked : fs.upper.get? (whiteoutPath src) = none) (hne : src ≠ dst)
    (hget : u.get? = Function.update fs.upper.get? (whiteoutPath dst) none) :
    ∃ u', (LayerFS.removeFile src).run ⟨u, fs.lower⟩ = .ok () ⟨u', fs.lower⟩ ∧
      TwinLeft fs src dst u' := by
  obtain ⟨content, hmark⟩ := h.mark
  obtain ⟨c, hsrc, -⟩ := h.same
  have hold : u.get? src = some (.link target) := by
    rw [hget, Function.update_of_ne h.src_ne_mark, h.old]
  have hthere : (u.nodeAt true src).isSome := by
    rw [(hsrc.of_removed hmark hget).nodeAt]
    rfl
  obtain ⟨u₁, hremove, hget₁⟩ := run_whenExists_removeFile hold (by simp) hthere
  have hmarks : whiteoutPath src ≠ whiteoutPath dst := fun heq =>
    hne (h.plain_src.unmarked.whiteoutPath_inj h.plain_dst.unmarked heq)
  have hnone₁ : u₁.get? (whiteoutPath src) = none := by
    rw [hget₁, Function.update_of_ne h.src_ne_mark.symm, hget, Function.update_of_ne hmarks,
      hunmarked]
  have hunhidden₁ : u₁.get? (whiteoutPath dst) = none := by
    rw [hget₁, Function.update_of_ne h.src_ne_mark.symm, hget, Function.update_self]
  -- beside the old name and the new one's marker nothing has changed
  have hothers₁ : ∀ q, q ≠ src → q ≠ whiteoutPath dst → u₁.get? q = fs.upper.get? q := by
    intro q hq hqmark
    rw [hget₁, Function.update_of_ne hq, hget, Function.update_of_ne hqmark]
  -- a whiteout is made only where a lower layer has the old name
  by_cases hlower : ∃ l ∈ fs.lower, existsAt l src = .ok true
  · have hparent₁ : u₁.get? src.dropLast = some .dir := by
      have hdir := h.src_parent
      rw [hothers₁ _ (fun heq => ?_) (fun heq => ?_), hdir]
      · rw [heq, h.old] at hdir
        cases hdir
      · rw [heq, hmark] at hdir
        cases hdir
    obtain ⟨u', hcreate, hget'⟩ := run_createWhiteout fs.lower hparent₁ hnone₁
    refine ⟨u', ?_, ?_, ?_, ?_, ?_, ?_⟩
    · refine run_bind_eq_ok.mpr ⟨(), ⟨u₁, fs.lower⟩, run_onUpper hremove, ?_⟩
      refine run_bind_eq_ok.mpr ⟨true, _, run_ask_eq_ok.mpr ⟨?_, rfl⟩, hcreate⟩
      exact congrArg _ (existsInLower_iff.mpr hlower)
    · intro q hq hqsrc hqdst
      rw [hget', Function.update_of_ne hqsrc, hothers₁ q hq hqdst]
    · rw [hget', Function.update_of_ne h.src_ne_mark, hget₁, Function.update_self]
    · rw [hget', Function.update_of_ne hmarks.symm, hunhidden₁]
    · simp [hget']
    · left
      simp [hget']
  · refine ⟨u₁, ?_, fun q hq _ => hothers₁ q hq, ?_, hunhidden₁, by simp [hnone₁], ?_⟩
    · refine run_bind_eq_ok.mpr ⟨(), ⟨u₁, fs.lower⟩, run_onUpper hremove, ?_⟩
      refine run_bind_eq_ok.mpr ⟨false, _, run_ask_eq_ok.mpr ⟨?_, rfl⟩, rfl⟩
      exact congrArg _ (Bool.eq_false_iff.mpr fun hsome => hlower (existsInLower_iff.mp hsome))
    · rw [hget₁, Function.update_self]
    · exact Or.inr (h.goes.resolve_left hlower)

/-- The move returns. -/
theorem run_moveFile (hunmarked : fs.upper.get? (whiteoutPath src) = none) (hne : src ≠ dst) :
    ∃ u, (VfsPath.moveFile src dst).run fs = .ok () ⟨u, fs.lower⟩ ∧ TwinLeft fs src dst u := by
  obtain ⟨u, hcopy, hget⟩ := h.run_copyFile hunmarked
  obtain ⟨u', hremove, hleft⟩ := h.run_removeFile hunmarked hne hget
  refine ⟨u', run_bind_eq_ok.mpr ⟨false, fs, run_ask_eq_ok.mpr ⟨h.existsAt_dst, rfl⟩, ?_⟩, hleft⟩
  exact run_bind_eq_ok.mpr ⟨(), _, hcopy, hremove⟩

end HiddenTwin

/-! ### What a client finds -/

/-- The whiteout of another path is no entry that changes. -/
theorem HiddenTwin.marks_apart (h : HiddenTwin fs src dst target) (hp : PlainPath p)
    (hsrc : p ≠ src) (hdst : p ≠ dst) : whiteoutPath p ≠ src ∧
      whiteoutPath p ≠ whiteoutPath src ∧ whiteoutPath p ≠ whiteoutPath dst :=
  ⟨h.src_ne_mark.symm,
    fun heq => hsrc (hp.unmarked.whiteoutPath_inj h.plain_src.unmarked heq),
    fun heq => hdst (hp.unmarked.whiteoutPath_inj h.plain_dst.unmarked heq)⟩

theorem symlinkMetadata_of_noLinkAlong (h : NoLinkAlong t p.dropLast) :
    symlinkMetadata t p = (t.get? p).map DiskNode.linkMetadata := by
  rw [symlinkMetadata_eq, nodeAt_of_noLinkAlong h]

/-- Below directories that show, the upper layer has no link. -/
theorem Reached.noLinkAlong (h : Reached fs p) : NoLinkAlong fs.upper p.dropLast :=
  straight_iff.mp fun q hq hne => kindAt_upper_of_directory (h q hq hne)

/-- A path that shows has no whiteout. -/
theorem get?_whiteoutPath_of_shown {x : ShownEntry} (hne : p ≠ [])
    (hparent : fs.upper.get? p.dropLast = some .dir) (h : shown fs p = some x) :
    fs.upper.get? (whiteoutPath p) = none := by
  obtain ⟨i, -, hi, -, -⟩ := exists_of_shown h
  have hunhidden := (physicalForWithLayer_isSome_iff.mp (Option.isSome_iff_exists.mpr ⟨i, hi⟩)).1
  rw [symlinkMetadata_of_noLinkAlong (by
    rw [whiteoutPath_dropLast]
    exact noLinkAlong_of_dir hparent), Option.isSome_map] at hunhidden
  exact Option.not_isSome_iff_eq_none.mp fun hsome => hunhidden ⟨hne, hsome⟩

theorem opaqueWalk_congr {up : List Name}
    (h : ∀ d, d <+: up.reverse → existsAt u (opaquePath d) = existsAt t (opaquePath d)) :
    opaqueWalk u up = opaqueWalk t up := by
  induction up with
  | nil => exact h [] (List.prefix_refl _)
  | cons n up ih =>
    have hup : ∀ d, d <+: up.reverse → d <+: (n :: up).reverse := fun d hd =>
      hd.trans (by rw [List.reverse_cons]; exact List.prefix_append _ _)
    rw [opaqueWalk, opaqueWalk, h _ (List.prefix_refl _), ih fun d hd => h d (hup d hd)]

namespace TwinLeft

variable (h : TwinLeft fs src dst u)
include h

theorem noLinkAlong (hp : NoLinkAlong fs.upper p) : NoLinkAlong u p := by
  intro q hq hne link hlink
  by_cases hsrc : q = src
  · rw [hsrc, h.old] at hlink
    cases hlink
  by_cases hmark : q = whiteoutPath src
  · exact h.noLink link (hmark ▸ hlink)
  by_cases hdst : q = whiteoutPath dst
  · rw [hdst, h.unhidden] at hlink
    cases hlink
  exact hp q hq hne link ((h.others q hsrc hmark hdst).symm.trans hlink)

section Untouched

variable (hp : NoLinkAlong fs.upper p.dropLast) (hsrc : p ≠ src) (hmark : p ≠ whiteoutPath src)
  (hdst : p ≠ whiteoutPath dst)
include hp hsrc hmark hdst

theorem symlinkMetadata_eq : symlinkMetadata u p = symlinkMetadata fs.upper p := by
  rw [symlinkMetadata_of_noLinkAlong hp, symlinkMetadata_of_noLinkAlong (h.noLinkAlong hp),
    h.others p hsrc hmark hdst]

theorem nodeAt_eq (hlink : ∀ link, fs.upper.get? p ≠ some (.link link)) :
    u.nodeAt true p = fs.upper.nodeAt true p := by
  have hget := h.others p hsrc hmark hdst
  rw [nodeAt_of_straight (noLinkAlong_of_dropLast hp hlink),
    nodeAt_of_straight (noLinkAlong_of_dropLast (h.noLinkAlong hp) (hget ▸ hlink)), hget]

end Untouched

variable (htwin : HiddenTwin fs src dst target) (hp : PlainPath p)
  (hreached : NoLinkAlong fs.upper p.dropLast) (hsrc : p ≠ src) (hdst : p ≠ dst)
include htwin hp hreached hsrc hdst

theorem physicalForWithLayer_eq :
    physicalForWithLayer p (⟨u, fs.lower⟩ : LayerFS DiskTree DiskTree) =
      physicalForWithLayer p fs := by
  obtain ⟨hmark, hmarks, hmarkd⟩ := htwin.marks_apart hp hsrc hdst
  have hwhiteout : whiteoutInUpper p u = whiteoutInUpper p fs.upper := by
    rw [Bool.eq_iff_iff, whiteoutInUpper_iff, whiteoutInUpper_iff,
      h.symlinkMetadata_eq (by rwa [whiteoutPath_dropLast]) hmark hmarks hmarkd]
  rw [physicalForWithLayer, physicalForWithLayer, hwhiteout,
    h.symlinkMetadata_eq hreached hsrc hp.unmarked.ne_whiteoutPath hp.unmarked.ne_whiteoutPath]

/-- What is read at another path is what was read there. -/
theorem contentAt_eq (hlink : ∀ link, fs.upper.get? p ≠ some (.link link)) :
    contentAt (⟨u, fs.lower⟩ : LayerFS DiskTree DiskTree) p = contentAt fs p := by
  -- no probe of the resolution is at a name that has changed
  have hexists : ∀ x, NoLinkAlong fs.upper x.dropLast → x ≠ src → x ≠ whiteoutPath src →
      x ≠ whiteoutPath dst → (∀ link, fs.upper.get? x ≠ some (.link link)) →
      existsAt u x = existsAt fs.upper x := by
    intro x hx hxs hxm hxd hxl
    rw [existsAt_nodeAt, existsAt_nodeAt, h.nodeAt_eq hx hxs hxm hxd hxl]
  obtain ⟨hmark, hmarks, hmarkd⟩ := htwin.marks_apart hp hsrc hdst
  have hself := h.nodeAt_eq hreached hsrc hp.unmarked.ne_whiteoutPath hp.unmarked.ne_whiteoutPath
    hlink
  have hwhiteout : isWhiteout p u = isWhiteout p fs.upper :=
    hexists _ (by rwa [whiteoutPath_dropLast]) hmark hmarks hmarkd fun link =>
      htwin.markers _ _ link (isMarker_whiteoutPrefix_append _)
  have hopaque : isOpaqueAbove p u = isOpaqueAbove p fs.upper := by
    refine opaqueWalk_congr fun d hd => hexists _ ?_ ?_ ?_ ?_ ?_
    · rw [opaquePath, List.dropLast_concat]
      exact hreached.of_isPrefix (by simpa [splitPath] using hd)
    · exact htwin.plain_src.unmarked.ne_opaquePath.symm
    · exact htwin.plain_src.unmarked.whiteoutPath_ne_opaquePath.symm
    · exact htwin.plain_dst.unmarked.whiteoutPath_ne_opaquePath.symm
    · exact fun link => htwin.markers d _ link isMarker_opaqueWhiteout
  have hresolve : LayerFS.resolve p (⟨u, fs.lower⟩ : LayerFS DiskTree DiskTree) =
      LayerFS.resolve p fs := by
    rw [LayerFS.resolve, LayerFS.resolve, hwhiteout, hopaque,
      hexists p hreached hsrc hp.unmarked.ne_whiteoutPath hp.unmarked.ne_whiteoutPath hlink]
  have hopen : FileSystem.openFile u p = FileSystem.openFile fs.upper p := by
    change DiskTree.openFile u p = DiskTree.openFile fs.upper p
    rw [DiskTree.openFile, DiskTree.openFile, hself]
  have hresolved : ∀ x : Resolved DiskTree,
      x.openFile p (⟨u, fs.lower⟩ : LayerFS DiskTree DiskTree) = x.openFile p fs := by
    rintro (_ | ⟨i, layer⟩)
    · exact hopen
    · rfl
  change (do (← LayerFS.openFile p ⟨u, fs.lower⟩).readToEnd) =
    (do (← LayerFS.openFile p fs).readToEnd)
  unfold LayerFS.openFile
  simp only [hresolve, hresolved]

/-- Another path shows what it showed. -/
theorem shown_eq : shown (⟨u, fs.lower⟩ : LayerFS DiskTree DiskTree) p = shown fs p := by
  rw [shown, shown, h.physicalForWithLayer_eq htwin hp hreached hsrc hdst]
  refine Option.bind_congr fun i hi => ?_
  have hmeta : layerMetadata (⟨u, fs.lower⟩ : LayerFS DiskTree DiskTree) p i =
      layerMetadata fs p i := by
    cases i with
    | zero =>
      exact h.symlinkMetadata_eq hreached hsrc hp.unmarked.ne_whiteoutPath
        hp.unmarked.ne_whiteoutPath
    | succ i => rfl
  have hlinks : layerReadLink (⟨u, fs.lower⟩ : LayerFS DiskTree DiskTree) p i =
      layerReadLink fs p i := by
    cases i with
    | zero =>
      change DiskTree.readLink u p = DiskTree.readLink fs.upper p
      rw [DiskTree.readLink, DiskTree.readLink, nodeAt_of_noLinkAlong hreached,
        nodeAt_of_noLinkAlong (h.noLinkAlong hreached),
        h.others p hsrc hp.unmarked.ne_whiteoutPath hp.unmarked.ne_whiteoutPath]
    | succ i => rfl
  rw [shownBy, shownBy, hmeta]
  cases hm : layerMetadata fs p i with
  | none => rfl
  | some m =>
    rw [Option.map_some, Option.map_some]
    cases hkind : m.kind with
    | regularFile =>
      -- only the content of a regular file is followed, and there is no link at `p` then
      have hfile : kindAt fs.upper p ≠ some .symlink := by
        cases i with
        | zero =>
          rw [kindAt, show symlinkMetadata fs.upper p = some m from hm, Option.map_some, hkind]
          simp
        | succ i =>
          rw [kindAt, upper_eq_none_of_lower hi]
          simp
      have hlink : ∀ link, fs.upper.get? p ≠ some (.link link) := fun link heq =>
        hfile ((kindAt_eq_symlink_iff hreached).mpr ⟨link, heq⟩)
      dsimp only
      rw [h.contentAt_eq htwin hp hreached hsrc hdst hlink]
    | directory => rfl
    | symlink =>
      dsimp only
      rw [hlinks]

end TwinLeft

/-- The new name shows the link that it hid. -/
theorem TwinLeft.shown_dst (h : TwinLeft fs src dst u) (htwin : HiddenTwin fs src dst target)
    (hne : src ≠ dst) : shown (⟨u, fs.lower⟩ : LayerFS DiskTree DiskTree) dst =
      some (.link (some target)) := by
  have hdst : u.get? dst = some (.link target) := by
    rw [h.others dst hne.symm htwin.plain_dst.unmarked.ne_whiteoutPath
      htwin.plain_dst.unmarked.ne_whiteoutPath, htwin.new]
  have hparent := h.noLinkAlong (noLinkAlong_of_dir htwin.dst_parent)
  have hentry : symlinkMetadata u dst = some ⟨.symlink, target.length⟩ := by
    rw [symlinkMetadata_of_noLinkAlong hparent, hdst]
    rfl
  have hunhidden : symlinkMetadata u (whiteoutPath dst) = none := by
    rw [symlinkMetadata_of_noLinkAlong (by rwa [whiteoutPath_dropLast]), h.unhidden]
    rfl
  have hlayer : physicalForWithLayer dst (⟨u, fs.lower⟩ : LayerFS DiskTree DiskTree) = some 0 := by
    have hnot : ¬ whiteoutInUpper dst u = true := by
      rw [whiteoutInUpper_iff, hunhidden]
      simp
    rw [physicalForWithLayer, if_neg hnot, if_pos (by rw [hentry]; rfl)]
  have hread : readLink u dst = some target := by
    change DiskTree.readLink u dst = _
    rw [DiskTree.readLink, nodeAt_of_noLinkAlong hparent, hdst]
  rw [shown, hlayer, Option.bind_some, shownBy,
    show layerMetadata (⟨u, fs.lower⟩ : LayerFS DiskTree DiskTree) dst 0 = _ from hentry,
    Option.map_some]
  exact congrArg (fun link => some (ShownEntry.link link)) hread

/-- The old name shows nothing. -/
theorem TwinLeft.shown_src (h : TwinLeft fs src dst u) (htwin : HiddenTwin fs src dst target) :
    shown (⟨u, fs.lower⟩ : LayerFS DiskTree DiskTree) src = none := by
  have hparent := h.noLinkAlong (noLinkAlong_of_dir htwin.src_parent)
  have hnone : physicalForWithLayer src (⟨u, fs.lower⟩ : LayerFS DiskTree DiskTree) = none := by
    rw [← Option.not_isSome_iff_eq_none, physicalForWithLayer_isSome_iff]
    rintro ⟨hunhidden, hentry⟩
    rw [symlinkMetadata_of_noLinkAlong (by rwa [whiteoutPath_dropLast]), Option.isSome_map]
      at hunhidden
    have hlower := h.gone.resolve_left fun hmark => hunhidden ⟨htwin.src_ne_nil, hmark⟩
    rcases hentry with hupper | ⟨l, hl, hsome⟩
    · rw [symlinkMetadata_of_noLinkAlong hparent, h.old] at hupper
      cases hupper
    · rw [hlower l hl] at hsome
      cases hsome
  rw [shown, hnone, Option.bind_none]

/-! ### The rename -/

variable {s : Fuse DiskTree DiskTree} {parent newparent : Ino} {name newname : Name}

/-- A link is moved onto its twin. -/
theorem HiddenTwin.movesLink (htwin : HiddenTwin s.root src dst target)
    (h : LinkRename s parent name newparent newname src dst target) :
    MovesLink s (.rename parent name newparent newname) src dst target := by
  have hne : src ≠ dst := by
    rintro rfl
    cases h.link.symm.trans h.free
  have hunmarked := get?_whiteoutPath_of_shown htwin.src_ne_nil htwin.src_parent h.link
  have hvalid : ∀ {ino : Ino} {n : Name} {p : Path}, childPath s ino n = some p → PlainPath p →
      ValidName n := by
    intro ino n p hp hplain
    obtain ⟨d, -, rfl⟩ := Option.map_eq_some_iff.mp hp
    exact (hplain n (by simp)).1
  -- the link is taken for a file, since it is followed to one
  have hdir : isDirInRoot src s = false := by
    obtain ⟨c, hc, -⟩ := htwin.same
    have hmetadata : FileSystem.metadata s.root src = .ok ⟨.file, c.length⟩ := by
      change LayerFS.metadata src s.root = _
      rw [LayerFS.metadata, htwin.resolve_src hunmarked]
      change DiskTree.metadata s.root.upper src = _
      rw [DiskTree.metadata, hc.nodeAt]
      rfl
    rw [isDirInRoot, hmetadata]
    rfl
  obtain ⟨u, hmove, hleft⟩ := htwin.run_moveFile hunmarked hne
  obtain ⟨hreply, hroot⟩ := respond_rename_ok (hvalid h.from_src htwin.plain_src)
    (hvalid h.to_dst htwin.plain_dst) h.from_src h.to_dst hdir hmove
  refine ⟨hreply, ?_, ?_, ?_⟩
  · rw [hroot]
    exact hleft.shown_dst htwin hne
  · rw [hroot]
    exact hleft.shown_src htwin
  · intro p hp hreached hsrc hdst
    rw [hroot]
    exact hleft.shown_eq htwin hp hreached.noLinkAlong hsrc hdst

/-- A rename moves a link at most to a name that hides one, and it does where that is a twin. -/
theorem movesLink_onto_hidden (s : Fuse DiskTree DiskTree) (parent newparent : Ino)
    (name newname : Name) (src dst : Path) (target : Target)
    (h : LinkRename s parent name newparent newname src dst target) :
    (MovesLink s (.rename parent name newparent newname) src dst target →
      HidesLink s.root dst) ∧
    (HiddenTwin s.root src dst target →
      MovesLink s (.rename parent name newparent newname) src dst target) :=
  ⟨fun hmoves => hmoves.hidesLink h, fun htwin => htwin.movesLink h⟩

/-- Two links to a file, one of them hidden. -/
def hiddenTwinLinks : Fuse DiskTree DiskTree :=
  new ⟨DiskTree.ofEntries [(["t".toList], .file (some [1])), (["l".toList], .link "t".toList),
    (["m".toList], .link "t".toList), ([".wh.m".toList], .file (some []))], []⟩ [] 8

theorem hiddenTwin_hiddenTwinLinks :
    HiddenTwin hiddenTwinLinks.root ["l".toList] ["m".toList] "t".toList where
  plain_src := by decide
  plain_dst := by decide
  old := by decide
  new := by decide
  mark := ⟨some [], by decide⟩
  markers d n link hn hlink := by
    have hfile : ∀ p ∈ hiddenTwinLinks.root.upper.map.keys, IsMarker (p.getLastD []) →
        hiddenTwinLinks.root.upper.get? p = some (.file (some [])) := by decide
    have hmem : d ++ [n] ∈ hiddenTwinLinks.root.upper.map.keys :=
      AList.lookup_isSome.mp (Option.isSome_iff_exists.mpr ⟨_, hlink⟩)
    cases hlink.symm.trans (hfile _ hmem (by simpa using hn))
  same := ⟨[1], ⟨["t".toList], by decide, by decide, by decide⟩,
    ⟨["t".toList], by decide, by decide, by decide⟩⟩
  goes := Or.inr nofun

theorem movesLink_onto_hidden_twinLinks :
    MovesLink hiddenTwinLinks (.rename rootIno "l".toList rootIno "m".toList) ["l".toList]
      ["m".toList] "t".toList := by
  have hrename : LinkRename hiddenTwinLinks rootIno "l".toList rootIno "m".toList ["l".toList]
      ["m".toList] "t".toList := by
    refine ⟨rfl, rfl, by decide, by decide, ?_⟩
    intro q hq hne
    exact absurd (List.prefix_nil.mp hq) hne
  exact (movesLink_onto_hidden hiddenTwinLinks rootIno rootIno "l".toList "m".toList ["l".toList]
    ["m".toList] "t".toList hrename).2 hiddenTwin_hiddenTwinLinks

end Rspacefs.Fuse
