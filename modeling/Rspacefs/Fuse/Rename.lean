import Rspacefs.Core.MoveFile
import Rspacefs.Fuse.Handle
import Rspacefs.Fuse.Touch

/-!
# Renaming onto a file

A process that saves a file writes a new one and renames it over the old. The
overlay's own `move_file` would replace the file at the destination, its copy
being a `create_file`. The request does not reach it: `VfsPath::move_file` declines
where the destination exists, and `rename` passes that on as an input/output error.

## Main definitions

* `Replaces` — what a rename of a file is to do
* `RenameReady` — the condition under which it does

## Main results

* `run_rename` — the request is the move, and the tables after it
* `rename_replaces_iff` — when a rename replaces
-/

namespace Rspacefs.Fuse

open Lib LayerFS

/-! ### The handler -/

section Handler

variable {υ ℓ : Type} [PhysicalFS υ] [PhysicalFS ℓ] {s : Fuse υ ℓ} {parent newparent : Ino}
  {name newname : Name} {src dst : Path}

/-- A rename of what is no directory: the move, then the bindings. -/
theorem run_rename (hname : ValidName name) (hnewname : ValidName newname)
    (hsrc : childPath s parent name = some src) (hdst : childPath s newparent newname = some dst)
    (hdir : isDirInRoot src s = false) :
    (step (.rename parent name newparent newname)).run s =
      (do onRoot .eio (VfsPath.moveFile src dst); rebind src dst; return .ok :
        FuseM υ ℓ Reply).run s := by
  obtain ⟨d, hd, rfl⟩ := Option.map_eq_some_iff.mp hsrc
  obtain ⟨d', hd', rfl⟩ := Option.map_eq_some_iff.mp hdst
  change (rename parent name newparent newname).run s = _
  rw [rename, EStateM.run_bind, run_pathOf hd]
  change (pathOf newparent >>= _ : FuseM υ ℓ Reply).run s = _
  rw [EStateM.run_bind, run_pathOf hd']
  change (join d name >>= _ : FuseM υ ℓ Reply).run s = _
  rw [EStateM.run_bind, run_join hname]
  change (join d' newname >>= _ : FuseM υ ℓ Reply).run s = _
  rw [EStateM.run_bind, run_join hnewname]
  change (do
      onRoot .eio (if isDirInRoot (d ++ [name]) s then
        VfsPath.moveDir s.frames (d ++ [name]) (d' ++ [newname])
        else VfsPath.moveFile (d ++ [name]) (d' ++ [newname]))
      rebind (d ++ [name]) (d' ++ [newname])
      return .ok : FuseM υ ℓ Reply).run s = _
  rw [hdir]
  rfl

/-- A move that returned is answered with its result. -/
theorem respond_rename_ok {fs' : LayerFS υ ℓ} (hname : ValidName name)
    (hnewname : ValidName newname) (hsrc : childPath s parent name = some src)
    (hdst : childPath s newparent newname = some dst) (hdir : isDirInRoot src s = false)
    (hmove : (VfsPath.moveFile src dst).run s.root = .ok () fs') :
    respond s (.rename parent name newparent newname) = .ok .ok ∧
      (next s (.rename parent name newparent newname)).root = fs' := by
  have hrun := run_rename hname hnewname hsrc hdst hdir
  rw [EStateM.run_bind, run_onRoot .eio hmove] at hrun
  obtain ⟨hreply, hnext⟩ := respond_eq_ok hrun
  refine ⟨hreply, ?_⟩
  rw [hnext]
  -- the bindings are no part of the overlay
  dsimp only
  cases s.paths src <;> rfl

/-- A move that failed is an input/output error. -/
theorem respond_rename_error (hname : ValidName name) (hnewname : ValidName newname)
    (hsrc : childPath s parent name = some src) (hdst : childPath s newparent newname = some dst)
    (hdir : isDirInRoot src s = false) (hmove : ¬ Returns (VfsPath.moveFile src dst) s.root) :
    respond s (.rename parent name newparent newname) = .error .eio := by
  rw [respond, run_rename hname hnewname hsrc hdst hdir, EStateM.run_bind, onRoot, run_onPart,
    EStateM.run_adaptExcept]
  cases hrun : (VfsPath.moveFile src dst).run s.root with
  | ok a fs' => exact absurd ⟨a, fs', hrun⟩ hmove
  | error e fs' => rfl

end Handler

/-! ### Renaming a file -/

variable {s : Fuse Tree Tree} {parent newparent : Ino} {name newname : Name} {src dst p : Path}
  {c : Bytes}

/-- A file is not taken for a directory. -/
theorem isDirInRoot_of_file (hfile : view s.root src = some (.file c)) :
    isDirInRoot src s = false := by
  have hmetadata : FileSystem.metadata s.root src = .ok ⟨.file, c.length⟩ := by
    change LayerFS.metadata src s.root = _
    rw [LayerFS.metadata_eq, hfile]
    rfl
  rw [isDirInRoot, hmetadata]
  rfl

/-- The request is answered with success, the file has replaced what was at `dst`, and nothing
else shows; an error would have left everything as it was. -/
structure Replaces (s : Fuse Tree Tree) (r : Request) (src dst : Path) (c : Bytes) : Prop where
  reply : respond s r = .ok .ok
  moved : Moved s.root (next s r).root src dst c
  on_error : ∀ e, respond s r = .error e → ∀ p, view (next s r).root p = view s.root p

/-- Nothing is shown at `dst`, the upper layer can take the file there and lose it at `src`, the
whiteout marker of `dst` does not come back, and the move does not show at any other name. -/
structure RenameReady (fs : Stack) (src dst : Path) : Prop where
  absent : view fs dst = none
  ready : MoveReady fs src dst
  unmarked : ¬ HeldAfter fs src dst (whiteoutPath dst)
  unnoticed : ∀ q, PlainPath q → q ≠ src → q ≠ dst → Unnoticed fs src dst q

/-- A rename of a file replaces exactly if it is ready to; it never is where the destination
exists. -/
theorem rename_replaces_iff (s : Fuse Tree Tree) (parent newparent : Ino) (name newname : Name)
    (src dst : Path) (c : Bytes) (hname : ValidName name) (hnewname : ValidName newname)
    (hsrc : childPath s parent name = some src) (hdst : childPath s newparent newname = some dst)
    (hne : src ≠ dst) (hfile : view s.root src = some (.file c)) :
    Replaces s (.rename parent name newparent newname) src dst c ↔
      RenameReady s.root src dst := by
  have hdir := isDirInRoot_of_file hfile
  constructor
  · intro hreplaces
    have hreturns : Returns (VfsPath.moveFile src dst) s.root := by
      by_contra hnot
      have herror := respond_rename_error hname hnewname hsrc hdst hdir hnot
      rw [hreplaces.reply] at herror
      cases herror
    obtain ⟨habsent, -⟩ := VfsPath.returns_moveFile_iff.mp hreturns
    obtain ⟨⟨⟩, fs', hrun⟩ := hreturns
    have hmoved := hreplaces.moved
    rw [(respond_rename_ok hname hnewname hsrc hdst hdir hrun).2] at hmoved
    rw [VfsPath.run_moveFile habsent] at hrun
    obtain ⟨hready, hmarker, hunnoticed⟩ := (moves_iff hne hfile).mp ⟨fs', hrun, hmoved⟩
    exact ⟨habsent, hready, hmarker, hunnoticed⟩
  · intro h
    obtain ⟨fs', hmove, hmoved⟩ := (moves_iff hne hfile).mpr ⟨h.ready, h.unmarked, h.unnoticed⟩
    rw [← VfsPath.run_moveFile h.absent] at hmove
    obtain ⟨hreply, hroot⟩ := respond_rename_ok hname hnewname hsrc hdst hdir hmove
    refine ⟨hreply, ?_, ?_⟩
    · rw [hroot]
      exact hmoved
    · intro e he
      rw [hreply] at he
      cases he

/-- Two files in an otherwise empty overlay. -/
def twoFiles : Fuse Tree Tree :=
  new ⟨Tree.ofEntries [(["new".toList], .file [2]), (["old".toList], .file [1])], []⟩ [] 8

theorem mem_of_twoFiles {x : Path} (h : (twoFiles.root.upper.get? x).isSome) :
    x ∈ [[], ["new".toList], ["old".toList]] := by
  rw [PathMap.get?, AList.lookup_isSome, AList.mem_keys] at h
  have hkeys : twoFiles.root.upper.map.keys = [["old".toList], ["new".toList], []] := by decide
  rw [hkeys] at h
  simpa [or_comm, or_left_comm] using h

theorem hides_twoFiles (q : Path) : twoFiles.root.upper.hides q = false := by
  rw [Bool.eq_false_iff]
  intro hhides
  have hname := isMarker_getLastD_whiteoutPath q
  have hmem := mem_of_twoFiles hhides
  simp only [List.mem_cons, List.not_mem_nil, or_false] at hmem
  rcases hmem with h | h | h
  · exact absurd h (by simp [whiteoutPath])
  · exact absurd (h ▸ hname) (by decide)
  · exact absurd (h ▸ hname) (by decide)

theorem mem_of_view_twoFiles {q : Path} (h : view twoFiles.root q ≠ none) :
    q ∈ [[], ["new".toList], ["old".toList]] := by
  apply mem_of_twoFiles
  rw [Option.isSome_iff_ne_none]
  intro hnone
  rw [view_of_passed (hides_twoFiles q) hnone] at h
  exact h (ite_self _)

/-- The file `new` can be renamed to a free name in the root that is not the marker of a name
shown. -/
theorem renameReady_twoFiles {newname : Name} (hne : newname ≠ "new".toList)
    (hfree : twoFiles.root.upper.get? [newname] = none)
    (hcovers : ∀ q ∈ [[], ["new".toList], ["old".toList]], whiteoutPath q ≠ [newname]) :
    RenameReady twoFiles.root ["new".toList] [newname] := by
  have hblocked : ∀ n : Name, ¬ Blocked twoFiles.root [n] :=
    fun n => not_blocked_of_parent (Tree.get?_root _)
  have hlower : existsInLower ["new".toList] twoFiles.root = false := rfl
  have hview : view twoFiles.root [newname] = none := by
    rw [view_of_passed (hides_twoFiles _) hfree]
    exact ite_self _
  have hmarker : twoFiles.root.upper.get? (whiteoutPath [newname]) = none :=
    Tree.hides_eq_false.mp (hides_twoFiles _)
  refine ⟨hview, ?_, ?_, ?_⟩
  · refine ⟨by simp [hfree], not_or.mpr ⟨hblocked _, by simp [hmarker]⟩, hblocked _, ?_, ?_⟩
    · exact fun hpre => hne (List.cons_prefix_cons.mp hpre).1
    · exact fun hpre => hne (List.cons_prefix_cons.mp hpre).1.symm
  · rintro ⟨-, ⟨hmarker, -⟩ | ⟨hthere, -⟩⟩
    · exact hmarker rfl
    · rw [hlower] at hthere
      cases hthere
  · -- the upper layer gains the destination only
    have hheld : ∀ x, twoFiles.root.upper.get? x = none →
        HeldAfter twoFiles.root ["new".toList] [newname] x → x = [newname] := by
      rintro x hnone ⟨-, ⟨-, hthere | hpre⟩ | ⟨hthere, -⟩⟩
      · rw [hnone] at hthere
        cases hthere
      · exact ((prefix_iff (by simp)).mp hpre).resolve_right fun hx =>
          ne_nil_of_get?_eq_none hnone (List.prefix_nil.mp hx)
      · rw [hlower] at hthere
        cases hthere
    intro q _ _ hq
    have hcovered : whiteoutPath q = [newname] → view twoFiles.root q = none := fun hmark =>
      by_contra fun hview => hcovers q (mem_of_view_twoFiles hview) hmark
    exact ⟨fun h => hcovered (hheld _ (Tree.hides_eq_false.mp (hides_twoFiles q)) h),
      fun _ hnone h => absurd (hheld q hnone h) hq, fun _ _ => hides_twoFiles q,
      fun _ _ _ h => absurd rfl h⟩

/-- A rename to an ordinary name, and one to a name that is a marker. -/
theorem rename_replaces_iff_twoFiles :
    Replaces twoFiles (.rename rootIno "new".toList rootIno "other".toList) ["new".toList]
        ["other".toList] [2] ∧
      Replaces twoFiles (.rename rootIno "new".toList rootIno ".wh.zz".toList) ["new".toList]
        [".wh.zz".toList] [2] :=
  ⟨(rename_replaces_iff twoFiles rootIno rootIno "new".toList "other".toList ["new".toList]
      ["other".toList] [2] (by decide) (by decide) rfl rfl (by decide) (by decide)).mpr
      (renameReady_twoFiles (by decide) (by decide) (by decide)),
    (rename_replaces_iff twoFiles rootIno rootIno "new".toList ".wh.zz".toList ["new".toList]
      [".wh.zz".toList] [2] (by decide) (by decide) rfl rfl (by decide) (by decide)).mpr
      (renameReady_twoFiles (by decide) (by decide) (by decide))⟩

/-- A file is not renamed onto another. -/
theorem not_rename_replaces_twoFiles :
    ¬ ∀ (s : Fuse Tree Tree) (parent newparent : Ino) (name newname : Name) (src dst : Path)
      (c : Bytes), ValidName name → ValidName newname → PlainPath src → PlainPath dst →
      childPath s parent name = some src → childPath s newparent newname = some dst → src ≠ dst →
      view s.root src = some (.file c) → view s.root dst.dropLast = some .dir →
      (view s.root dst = none ∨ ∃ b, view s.root dst = some (.file b)) →
      Replaces s (.rename parent name newparent newname) src dst c := by
  intro h
  have hreplaces := h twoFiles rootIno rootIno "new".toList "old".toList ["new".toList]
    ["old".toList] [2] (by decide) (by decide) (by decide) (by decide) rfl rfl (by decide)
    (by decide) (by decide) (Or.inr ⟨[1], by decide⟩)
  have hreply := hreplaces.reply
  cases hreply

end Rspacefs.Fuse
