import Rspacefs.Core.Cache
import Rspacefs.Fuse.Touch

/-!
# A path that was created

A request that creates a file or a directory, or writes a buffer back, and is answered ok
leaves an entry at its path in the upper directory, and no marker that hides it: the
side-channel finds the path, and the overlay shows what was written. Where a link stands at
the path or above it, or at its marker, none of this need hold.

## Main definitions

* `NoLinks` — no link stands at a path, at its marker or above them
* `MakesEntries` — a directory that was created is there

## Main results

* `create_found`, `mkdir_found` — the side-channel finds what was created
* `release_written` — the overlay shows what was written back
-/

namespace Rspacefs

open Lib LayerFS

variable {υ ℓ α : Type} [PhysicalFS υ] {u u' : υ} {p x : Path} {lower : List ℓ}

/-- No link stands at the path, at its marker or above them. -/
structure NoLinks (p : Path) (u : υ) : Prop where
  path : Straight u p
  marker : Straight u (whiteoutPath p)

/-- What `create_dir` made is there. -/
class MakesEntries (υ : Type) [PhysicalFS υ] : Prop where
  createDir_entry : ∀ p : Path, Triple (fun _ => True) (FileSystem.createDir p : VfsM υ Unit)
    (fun _ u => (kindAt u p).isSome) (fun _ => True)

/-- Nothing hides the path in the upper directory. -/
structure Clear (p : Path) (u : υ) : Prop extends NoLinks p u where
  noMarker : kindAt u (whiteoutPath p) = none

theorem NoLinks.steady (h : NoLinks p u) (hs : Steady x u u') : NoLinks p u' :=
  ⟨hs.straight h.path, hs.straight h.marker⟩

theorem Clear.steady (hp : p ≠ []) (h : Clear p u) (hs : Steady p u u') : Clear p u' where
  toNoLinks := h.toNoLinks.steady hs
  noMarker := by
    rw [(hs.others (whiteoutPath p) h.marker (whiteoutPath_ne hp)).1]
    exact h.noMarker

/-- The side-channel finds an entry that nothing hides. -/
theorem Clear.physicalForWithLayer_eq [PhysicalFS ℓ] {fs : LayerFS υ ℓ} (h : Clear p fs.upper)
    (hentry : (kindAt fs.upper p).isSome) : physicalForWithLayer p fs = some 0 := by
  have hmark : whiteoutInUpper p fs.upper = false := by
    rw [Bool.eq_false_iff, Ne, whiteoutInUpper_iff, ← isSome_kindAt, h.noMarker]
    simp
  rw [isSome_kindAt] at hentry
  rw [physicalForWithLayer, hmark, if_neg Bool.false_ne_true, if_pos hentry]

instance : MakesEntries Tree where
  createDir_entry p t _ := by
    refine ((Tree.createDir_spec t p).weaken (fun _ h => h) ?_ fun _ _ => trivial) t rfl
    rintro _ t' ⟨-, -, -, hget⟩
    rw [Tree.kindAt_eq, hget, Function.update_self]
    rfl

variable [LocalPhysicalFS υ]

theorem keptName_noLinks (hx : x.dropLast <+: p) : KeptName (NoLinks (υ := υ) p) x where
  createDir := Triple.of_forall fun u hu =>
    (LocalPhysicalFS.createDir u x (hu.path.of_isPrefix hx)).weaken (fun _ h => h)
      (fun _ _ h => hu.steady h) fun _ h => hu.steady h
  removeFile := Triple.of_forall fun u hu =>
    (LocalPhysicalFS.removeFile u x (hu.path.of_isPrefix hx)).weaken (fun _ h => h)
      (fun _ _ h => hu.steady h.1) fun _ h => hu.steady h
  removeDir := Triple.of_forall fun u hu =>
    (LocalPhysicalFS.removeDir u x (hu.path.of_isPrefix hx)).weaken (fun _ h => h)
      (fun _ _ h => hu.steady h.1) fun _ h => hu.steady h

/-- Removing a marker where no link leads. -/
theorem removeWhiteout_clear :
    Triple (Stacked (NoLinks p) lower) (removeWhiteout p : VfsM (LayerFS υ ℓ) Unit)
      (fun _ => Stacked (Clear p) lower) (fun _ => True) := by
  have hremove : Triple (NoLinks p) (whenExists (whiteoutPath p)
      (FileSystem.removeFile (whiteoutPath p)) : VfsM υ Unit) (fun _ => Clear p) (fun _ => True) := by
    refine Triple.of_forall fun u hu => Triple.ask_from trivial fun there hthere => ?_
    rw [LocalPhysicalFS.existsAt_of_straight u _ hu.marker, Except.ok.injEq] at hthere
    subst hthere
    refine Triple.ite (fun _ => ?_) fun hnone => Triple.pure () ?_
    · refine (LocalPhysicalFS.removeFile u _ (hu.marker.of_isPrefix (List.dropLast_prefix _))).weaken
        (fun _ h => h) (fun _ u' h => ⟨hu.steady h.1, h.2⟩) fun _ _ => trivial
    · rintro _ rfl
      exact ⟨hu, Option.not_isSome_iff_eq_none.mp hnone⟩
  exact onUpper_returns hremove

/-- `create_file` and `create_dir` of the overlay make the parents, remove the marker, and
then make the call on the upper directory. -/
theorem place_clear {y : VfsM υ α} {Q : α → υ → Prop} (hp : p ≠ [])
    (hy : ∀ u, Clear p u →
      Triple (· = u) y (fun a u' => Steady p u u' ∧ Q a u') (fun _ => True)) :
    Triple (Stacked (NoLinks p) lower)
      (ensureUpperParents p >>= fun _ => removeWhiteout p >>= fun _ => onUpper y)
      (fun a => Stacked (fun u => Clear p u ∧ Q a u) lower) (fun _ => True) := by
  have hparents : Triple (Stacked (NoLinks p) lower)
      (ensureUpperParents p : VfsM (LayerFS υ ℓ) Unit) (fun _ => Stacked (NoLinks p) lower)
      (fun _ => True) :=
    (ensureUpperParents_stacked fun q hq => keptName_noLinks
      ((List.dropLast_prefix q).trans (hq.trans (List.dropLast_prefix p)))).weaken
      (fun _ h => h) (fun _ _ h => h) fun _ _ => trivial
  refine Triple.bind hparents fun _ => Triple.bind removeWhiteout_clear fun _ => ?_
  refine onUpper_returns (Triple.of_forall fun u hu => ?_)
  exact (hy u hu).weaken (fun _ h => h) (fun a u' h => ⟨hu.steady hp h.1, h.2⟩) fun _ h => h

variable [FileSystem ℓ]

theorem createFile_clear (lower : List ℓ) (hp : p ≠ []) :
    Triple (Stacked (NoLinks p) lower) (VfsPath.createFile p : VfsM (LayerFS υ ℓ) Writer)
      (fun w => Stacked (fun u => Clear p u ∧ w = ⟨p, 0⟩ ∧ kindAt u p = some .regularFile ∧
        contentAt u p = .ok []) lower) (fun _ => True) := by
  refine Triple.bind (R := fun _ => Stacked (NoLinks p) lower)
    (Triple.ask (fun _ _ h _ => h) fun _ _ => trivial) fun _ => place_clear hp fun u hu => ?_
  refine Triple.ask_from trivial fun _ _ => ?_
  exact (LocalPhysicalFS.createFile u p hu.path).weaken (fun _ h => h) (fun _ _ h => h)
    fun _ _ => trivial

/-- The whole file written through the writer that `create_file` returned. -/
theorem writeAll_clear (hp : p ≠ []) (data : Bytes) (w : Writer) :
    Triple (Stacked (fun u => Clear p u ∧ w = ⟨p, 0⟩ ∧ kindAt u p = some .regularFile ∧
        contentAt u p = .ok []) lower)
      (FileSystem.writeAll w data : VfsM (LayerFS υ ℓ) Unit)
      (fun _ => Stacked (fun u => Clear p u ∧ (kindAt u p).isSome ∧ contentAt u p = .ok data) lower)
      (fun _ => True) := by
  refine onUpper_returns (Triple.of_forall ?_)
  rintro u ⟨hu, rfl, hkind, hcontent⟩
  refine (LocalPhysicalFS.writeAll u p 0 data hu.path).weaken (fun _ h => h) ?_ fun _ _ => trivial
  rintro _ u' ⟨hsteady, hkind', hcontent'⟩
  refine ⟨hu.steady hp hsteady, by simp [hkind', hkind], ?_⟩
  rw [hcontent' [] hcontent, splice_nil]

theorem createDir_clear [MakesEntries υ] (lower : List ℓ) (hp : p ≠ []) :
    Triple (Stacked (NoLinks p) lower) (VfsPath.createDir p : VfsM (LayerFS υ ℓ) Unit)
      (fun _ => Stacked (fun u => Clear p u ∧ (kindAt u p).isSome) lower) (fun _ => True) := by
  refine Triple.bind (R := fun _ => Stacked (NoLinks p) lower)
    (Triple.ask (fun _ _ h _ => h) fun _ _ => trivial) fun _ => place_clear hp fun u hu => ?_
  refine Triple.ask_from trivial fun _ _ => ?_
  have hboth := (LocalPhysicalFS.createDir u p (hu.path.of_isPrefix (List.dropLast_prefix p))).and
    (MakesEntries.createDir_entry p)
  exact hboth.weaken (fun _ h => ⟨h, trivial⟩) (fun _ _ h => h) fun _ _ => trivial

/-! ### What is found and shown then -/

variable {fs : LayerFS υ ℓ}

/-- The overlay finds an entry that nothing hides. -/
theorem Clear.resolve_eq (h : Clear p fs.upper) (hentry : (kindAt fs.upper p).isSome) :
    resolve p fs = .ok (some .upper) := by
  have hmark : isWhiteout p fs.upper = .ok false := by
    rw [isWhiteout, LocalPhysicalFS.existsAt_of_straight _ _ h.marker, h.noMarker]
    rfl
  rw [resolve, hmark, ok_bind, if_neg Bool.false_ne_true,
    LocalPhysicalFS.existsAt_of_straight _ _ h.path, hentry]
  rfl

theorem Clear.contentAt_eq (h : Clear p fs.upper) (hentry : (kindAt fs.upper p).isSome) :
    contentAt fs p = contentAt fs.upper p := by
  change (LayerFS.openFile p fs >>= fun reader => reader.readToEnd) = _
  rw [LayerFS.openFile, h.resolve_eq hentry]
  rfl

/-! ### The requests -/

namespace Fuse

variable {υ ℓ : Type} [PhysicalFS υ] [LocalPhysicalFS υ] [PhysicalFS ℓ] {s : Fuse υ ℓ}
  {path : Path} {parent : Ino} {name : Name} {fh : Fh}

theorem existsInRoot_found [LawfulPhysicalFS ℓ] (hlinks : NoLinks path s.root.upper)
    (h : existsInRoot path s = true) : (physicalForWithLayer path s.root).isSome := by
  have hexists : LayerFS.existsAt path s.root = .ok true := by
    change unwrapOr false (LayerFS.existsAt path s.root) = true at h
    cases hx : LayerFS.existsAt path s.root with
    | ok b =>
      rw [hx, unwrapOr_ok] at h
      rw [h]
    | error e =>
      rw [hx] at h
      cases h
  obtain ⟨r, hr, hsome⟩ := except_bind_eq_ok.mp hexists
  cases r with
  | none => cases hsome
  | some r =>
    obtain ⟨hmark, hfound⟩ := resolve_eq_some hr
    rw [LocalPhysicalFS.existsAt_of_straight _ _ hlinks.marker, isSome_kindAt,
      Except.ok.injEq] at hmark
    rw [physicalForWithLayer_isSome_iff]
    refine ⟨by simp [hmark], ?_⟩
    rcases hfound with ⟨-, hupper⟩ | ⟨-, above, l, below, hlower, -, hl, -⟩
    · exact Or.inl (LawfulPhysicalFS.symlinkMetadata_of_existsAt _ _ hupper)
    · exact Or.inr ⟨l, by simp [hlower], LawfulPhysicalFS.symlinkMetadata_of_existsAt _ _ hl⟩

/-- The side-channel finds what `create` created or opened. -/
theorem create_found [LawfulPhysicalFS ℓ] {flags : OpenFlags}
    (hpath : childPath s parent name = some path) (hlinks : NoLinks path s.root.upper) :
    Triple (· = s) (create parent name flags)
      (fun _ s' => (physicalForWithLayer path s'.root).isSome) (fun _ => True) := by
  refine childPath_from trivial fun path' hpath' => Triple.ask_from trivial fun there hthere =>
    failIf_from trivial fun _ => ?_
  cases hpath.symm.trans hpath'
  rw [Except.ok.injEq] at hthere
  refine Triple.bind (R := fun _ s' => (physicalForWithLayer path s'.root).isSome) ?_ fun _ => ?_
  · refine Triple.ite (fun _ => ?_) fun hkept => Triple.pure () ?_
    · -- the file is created
      refine Triple.bind (R := fun _ s' => (physicalForWithLayer path s'.root).isSome) ?_
        fun _ => Triple.pure () fun _ h => h
      refine (onRoot_rooted (createFile_clear s.root.lower
        (childPath_ne_nil hpath))).weaken ?_ ?_ fun _ _ => trivial
      · rintro _ rfl
        exact ⟨hlinks, rfl⟩
      · rintro w s' ⟨⟨hclear, -, hkind, -⟩, -⟩
        rw [hclear.physicalForWithLayer_eq (by simp [hkind])]
        rfl
    · -- it was there
      rintro _ rfl
      refine existsInRoot_found hlinks ?_
      rw [hthere]
      simp only [Bool.or_eq_true, Bool.not_eq_true', not_or, Bool.not_eq_false] at hkept
      exact hkept.1
  · exact ((Keeps.bind internPath_keeps fun _ => Keeps.bind (attrNow_keeps _) fun _ =>
      Keeps.bind allocFh_keeps fun _ => Keeps.bind (insertFile_keeps _) fun _ =>
        Keeps.pure _).triple (I := fun root => (physicalForWithLayer path root).isSome)).weaken
      (fun _ h => h) (fun _ _ h => h) fun _ _ => trivial

/-- The side-channel finds what `mkdir` created. -/
theorem mkdir_found [MakesEntries υ] (hpath : childPath s parent name = some path)
    (hlinks : NoLinks path s.root.upper) :
    Triple (· = s) (mkdir parent name)
      (fun _ s' => (physicalForWithLayer path s'.root).isSome) (fun _ => True) := by
  refine childPath_from trivial fun path' hpath' => failIf_from trivial fun _ => ?_
  cases hpath.symm.trans hpath'
  refine Triple.bind (R := fun _ s' => (physicalForWithLayer path s'.root).isSome) ?_ fun _ => ?_
  · refine (onRoot_rooted (createDir_clear s.root.lower
      (childPath_ne_nil hpath))).weaken ?_ ?_ fun _ _ => trivial
    · rintro _ rfl
      exact ⟨hlinks, rfl⟩
    · rintro _ s' ⟨⟨hclear, hentry⟩, -⟩
      rw [hclear.physicalForWithLayer_eq hentry]
      rfl
  · exact ((Keeps.bind internPath_keeps fun _ => Keeps.bind (attrNow_keeps _) fun _ =>
      Keeps.pure _).triple (I := fun root => (physicalForWithLayer path root).isSome)).weaken
      (fun _ h => h) (fun _ _ h => h) fun _ _ => trivial

/-- A path with this content, where the side-channel and the overlay look for it. -/
structure Shown (s : Fuse υ ℓ) (path : Path) (data : Bytes) : Prop where
  found : physicalForWithLayer path s.root = some 0
  content : contentAt s.root path = .ok data
  onDisk : contentAt s.root.upper path = .ok data

/-- The overlay shows what was written back. -/
theorem writeBack_written {data : Bytes} (hne : path ≠ []) (hlinks : NoLinks path s.root.upper) :
    Triple (fun s' => s'.root = s.root) (writeBack path data) (fun _ s' => Shown s' path data)
      (fun _ => True) := by
  refine Triple.bind (R := fun w s' => Stacked (fun u => Clear path u ∧ w = ⟨path, 0⟩ ∧
    kindAt u path = some .regularFile ∧ contentAt u path = .ok []) s.root.lower s'.root) ?_ fun w => ?_
  · refine (onRoot_rooted (createFile_clear s.root.lower hne)).weaken ?_
      (fun _ _ h => h) fun _ _ => trivial
    rintro s' hs'
    rw [hs']
    exact ⟨hlinks, rfl⟩
  · refine (onRoot_rooted (writeAll_clear hne data w)).weaken (fun _ h => h) ?_ fun _ _ => trivial
    rintro _ s' ⟨⟨hclear, hentry, hcontent⟩, -⟩
    exact ⟨hclear.physicalForWithLayer_eq hentry, by rw [hclear.contentAt_eq hentry, hcontent],
      hcontent⟩

theorem release_written {data : Bytes} {w : Bool} (hne : path ≠ [])
    (hlinks : NoLinks path s.root.upper) (hfile : s.openFiles fh = some (.buffered path data true w)) :
    Triple (· = s) (release fh) (fun _ s' => Shown s' path data) (fun _ => True) := by
  refine fileOf_from trivial fun file hfile' => ?_
  cases hfile.symm.trans hfile'
  refine Triple.bind (R := fun _ s' => s'.root = s.root)
    ((removeFile_keeps.triple (I := fun root => root = s.root)).weaken (by rintro _ rfl; rfl)
      (fun _ _ h => h) fun _ _ => trivial) fun _ => ?_
  exact Triple.bind (writeBack_written hne hlinks) fun _ => Triple.pure _ fun _ h => h

end Fuse

end Rspacefs
