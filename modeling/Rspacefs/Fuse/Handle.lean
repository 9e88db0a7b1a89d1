import Rspacefs.Core.Overwrite
import Rspacefs.Fuse.Passive
import Rspacefs.Lib.Cursor

/-!
# One writable handle

Opening a file for writing reads it into memory. Writes and reads on the handle work on
the buffer, `fsync` and `release` write it back whole, and `setattr` with size 0 empties
the file in the overlay. The buffer is not told: a handle that has something in its
buffer when the file is truncated keeps it.

## Main definitions

* `ThroughHandle` — the requests a process makes through one handle
* `arrayAfter` — the reference: a byte array
* `Holds` — a handle holds an array

## Main results

* `Holds.step`, `Holds.run` — along a run in which the file is truncated only while the
  array is empty, the handle holds what the reference has
* `handle_is_array`, `stale_after_truncate` — so replies and the file in the end agree
  with the reference there, and not elsewhere
-/

namespace Rspacefs.Fuse

open Lib LayerFS

/-! ### Handlers step by step -/

theorem readBuffer_eq_slice (a : Bytes) (offset size : Nat) :
    readBuffer a offset size = slice a offset size := by
  unfold readBuffer
  split
  · rename_i hpast
    rw [slice_of_length_le hpast]
  · rw [slice, List.drop_take, List.take_eq_take_iff, List.length_drop]
    omega

theorem writeBuffer_eq_splice (a : Bytes) (offset : Nat) (data : Bytes) :
    writeBuffer a offset data = splice a offset data := by
  unfold writeBuffer splice
  simp only
  split
  · rename_i hgrow
    have hpadded : (a ++ List.replicate (offset + data.length - a.length) 0).length ≤
        offset + data.length := by
      rw [List.length_append, List.length_replicate]
      omega
    rw [List.drop_eq_nil_of_le hpadded, List.drop_eq_nil_of_le (by omega)]
    congr 2
    -- both paddings reach the offset
    rw [List.take_append, List.take_append, List.take_replicate, List.take_replicate]
    congr 2
    omega
  · rename_i hfits
    rw [Nat.sub_eq_zero_of_le (by omega), List.replicate_zero, List.append_nil]

section

variable {υ ℓ : Type} {s : Fuse υ ℓ} {ino : Ino} {fh : Fh} {p : Path} {r : Request}

theorem run_fileOf {f : OpenFile} (h : s.openFiles fh = some f) :
    (fileOf fh).run s = .ok f s := by
  rw [fileOf, run_ask, h]

theorem run_pathOf (h : s.inodes ino = some p) : (pathOf ino).run s = .ok p s := by
  rw [pathOf, run_ask, h]

theorem run_join {name : Name} (hvalid : ValidName name) :
    (join p name).run s = .ok (p ++ [name]) s := by
  rw [Fuse.join.eq_def, if_pos hvalid]
  rfl

theorem run_allocFh : (allocFh : FuseM υ ℓ Fh).run s =
    .ok s.nextFh { s with nextFh := s.nextFh + 1 } := rfl

/-- A call on the overlay that returns. -/
theorem run_onRoot {α : Type} {x : VfsM (LayerFS υ ℓ) α} {b : α} {fs' : LayerFS υ ℓ} (e : Errno)
    (h : x.run s.root = .ok b fs') : (onRoot e x).run s = .ok b { s with root := fs' } := by
  rw [onRoot, run_onPart, EStateM.run_adaptExcept, h]

variable [PhysicalFS υ] [PhysicalFS ℓ]

theorem respond_eq_ok {reply : Reply} {s' : Fuse υ ℓ} (h : (step r).run s = .ok reply s') :
    respond s r = .ok reply ∧ next s r = s' := by
  rw [respond, next, finalState, h]
  exact ⟨rfl, rfl⟩

theorem run_write {a : Bytes} {dirty : Bool} (h : s.openFiles fh = some (.buffered p a dirty true))
    (offset : Nat) (data : Bytes) :
    (step (.write fh offset data)).run s = .ok (.written data.length) { s with
      openFiles := Function.update s.openFiles fh
        (some (.buffered p (splice a offset data) true true)) } := by
  refine run_bind_eq_ok.mpr ⟨_, s, run_fileOf h, ?_⟩
  rw [← writeBuffer_eq_splice]
  rfl

end

variable {s : Fuse Tree Tree} {ino : Ino} {fh : Fh} {p : Path} {a c : Bytes} {r : Request}
  {rs : List Request}

/-! ### The reference -/

/-- A request on the file `ino` through the handle `fh`. -/
inductive ThroughHandle (ino : Ino) (fh : Fh) : Request → Prop
  | write (offset : Nat) (data : Bytes) : ThroughHandle ino fh (.write fh offset data)
  | read (offset size : Nat) : ThroughHandle ino fh (.read fh offset size)
  /-- `setattr` with size 0, whatever else it sets. -/
  | truncate (needsUpper : Bool) (applied : Except Errno Unit) :
      ThroughHandle ino fh (.setattr ino ⟨some 0, needsUpper, applied⟩)
  | fsync : ThroughHandle ino fh (.fsync fh)

/-- The byte array after a request on it. -/
def arrayAfter (a : Bytes) : Request → Bytes
  | .write _ offset data => splice a offset data
  | .setattr _ _ => []
  | _ => a

/-- A truncation comes only when there is nothing to truncate. -/
def EmptyIfTruncated (a : Bytes) : Request → Prop
  | .setattr _ _ => a = []
  | _ => True

/-! ### A handle that holds an array -/

/-- The inode `ino` names `p`, the handle's buffer is `a`, and unless it is marked as
changed the file shows `a` too. -/
structure Holds (s : Fuse Tree Tree) (ino : Ino) (fh : Fh) (p : Path) (a : Bytes) : Prop where
  path : s.inodes ino = some p
  ne_marker : p ≠ whiteoutPath []
  place : CanCreate s.root p
  buffer : ∃ dirty, s.openFiles fh = some (.buffered p a dirty true) ∧
    (dirty = false → contentAt s.root p = .ok a)

/-- The write-back of a buffer. -/
theorem run_writeBack (h : CanCreate s.root p) (data : Bytes) :
    ∃ fs', (writeBack p data).run s = .ok () { s with root := fs' } ∧
      Placed s.root fs' p (.file data) := by
  obtain ⟨fs₁, hcreate, hplaced⟩ := h.run_createFile
  obtain ⟨fs', hwrite, hplaced'⟩ := hplaced.run_writeAll data
  refine ⟨fs', ?_, hplaced'⟩
  refine run_bind_eq_ok.mpr ⟨⟨p, 0⟩, { s with root := fs₁ }, run_onRoot .eio hcreate, ?_⟩
  exact run_onRoot .eio hwrite

/-- What the upper layer has is not copied up. -/
theorem run_ensureInUpper (h : (symlinkMetadata s.root.upper p).isSome) :
    (ensureInUpper p).run s = .ok () s := by
  rw [ensureInUpper, EStateM.run_bind, run_ask, h]
  rfl

/-! ### A request on a handle, as it runs -/

variable {dirty : Bool}

/-- `fsync` makes the file show the buffer if it was changed. -/
theorem run_fsync (hplace : dirty = true → CanCreate s.root p)
    (h : s.openFiles fh = some (.buffered p a dirty true)) :
    ∃ fs', (Fuse.step (.fsync fh)).run s = .ok .ok { s with
        root := fs'
        openFiles := Function.update s.openFiles fh (some (.buffered p a false true)) } ∧
      if dirty then Placed s.root fs' p (.file a) else fs' = s.root := by
  cases dirty with
  | false =>
    refine ⟨s.root, run_bind_eq_ok.mpr ⟨_, s, run_fileOf h, ?_⟩, rfl⟩
    rw [← h, Function.update_eq_self]
    rfl
  | true =>
    obtain ⟨fs', hback, hplaced⟩ := run_writeBack (hplace rfl) a
    refine ⟨fs', run_bind_eq_ok.mpr ⟨_, s, run_fileOf h, ?_⟩, hplaced⟩
    exact run_bind_eq_ok.mpr ⟨(), _, run_bind_eq_ok.mpr ⟨(), _, hback, rfl⟩, rfl⟩

/-- `release` does the same, and closes the handle. -/
theorem run_release (hplace : dirty = true → CanCreate s.root p)
    (h : s.openFiles fh = some (.buffered p a dirty true)) :
    ∃ fs', (Fuse.step (.release fh)).run s = .ok .ok { s with
        root := fs', openFiles := Function.update s.openFiles fh none } ∧
      if dirty then Placed s.root fs' p (.file a) else fs' = s.root := by
  cases dirty with
  | false => exact ⟨s.root, run_bind_eq_ok.mpr ⟨_, s, run_fileOf h, rfl⟩, rfl⟩
  | true =>
    obtain ⟨fs', hback, hplaced⟩ := run_writeBack
      (s := { s with openFiles := Function.update s.openFiles fh none }) (hplace rfl) a
    refine ⟨fs', run_bind_eq_ok.mpr ⟨_, s, run_fileOf h, ?_⟩, hplaced⟩
    exact run_bind_eq_ok.mpr ⟨(), _, rfl, run_bind_eq_ok.mpr ⟨(), _, hback, rfl⟩⟩

namespace Holds

/-- A read replies the slice. -/
theorem respond_read (h : Holds s ino fh p a) (offset size : Nat) :
    respond s (.read fh offset size) = .ok (.data (slice a offset size)) ∧
      next s (.read fh offset size) = s := by
  obtain ⟨dirty, hfile, -⟩ := h.buffer
  refine respond_eq_ok (run_bind_eq_ok.mpr ⟨_, s, run_fileOf hfile, ?_⟩)
  rw [← readBuffer_eq_slice]
  rfl

theorem next_write (h : Holds s ino fh p a) (offset : Nat) (data : Bytes) :
    Holds (next s (.write fh offset data)) ino fh p (splice a offset data) := by
  obtain ⟨dirty, hfile, -⟩ := h.buffer
  rw [(respond_eq_ok (run_write hfile offset data)).2]
  exact ⟨h.path, h.ne_marker, h.place, true, by simp, by simp⟩

theorem next_truncate (h : Holds s ino fh p []) (needsUpper : Bool) (applied : Except Errno Unit) :
    Holds (next s (.setattr ino ⟨some 0, needsUpper, applied⟩)) ino fh p [] := by
  obtain ⟨fs', hcreate, hplaced⟩ := h.place.run_createFile
  -- once the file is in the upper layer, the rest of `setattr` changes nothing
  have hthere : (symlinkMetadata fs'.upper p).isSome := by
    rw [Tree.isSome_symlinkMetadata, hplaced.entry]
    rfl
  have hsame : Triple (· = s) (setattr ino ⟨some 0, needsUpper, applied⟩)
      (fun _ s' => s' = { s with root := fs' }) (fun s' => s' = { s with root := fs' }) := by
    refine Triple.bind_run (run_pathOf h.path) ?_
    refine Triple.bind_run (run_bind_eq_ok.mpr ⟨_, _, run_onRoot .eio hcreate, rfl⟩) ?_
    refine Triple.bind_from (R := fun _ s' => s' = { s with root := fs' }) ?_ ?_
    · refine Triple.ite (fun _ => ?_) fun _ => Triple.pure () fun _ hs => hs
      exact Triple.bind_run (run_ensureInUpper hthere) (Keeps.ask (g := id) _ _)
    · rintro _ _ rfl
      exact Keeps.bind (g := id) attrForPath_keeps (fun _ => Keeps.pure _) _
  rw [next, show step (.setattr ino ⟨some 0, needsUpper, applied⟩) = setattr ino _ from rfl]
  rw [hsame.finalState rfl]
  exact ⟨h.path, h.ne_marker, h.place.of_placed h.ne_marker hplaced, h.buffer.imp fun _ hb =>
    ⟨hb.1, fun _ => hplaced.contentAt_eq⟩⟩

theorem next_fsync (h : Holds s ino fh p a) : Holds (next s (.fsync fh)) ino fh p a := by
  obtain ⟨dirty, hfile, hclean⟩ := h.buffer
  obtain ⟨fs', hrun, hback⟩ := run_fsync (fun _ => h.place) hfile
  rw [(respond_eq_ok hrun).2]
  cases dirty with
  | false =>
    obtain rfl : fs' = s.root := hback
    exact ⟨h.path, h.ne_marker, h.place, false, by simp, fun _ => hclean rfl⟩
  | true =>
    have hplaced : Placed s.root fs' p (.file a) := hback
    exact ⟨h.path, h.ne_marker, h.place.of_placed h.ne_marker hplaced, false, by simp,
      fun _ => hplaced.contentAt_eq⟩

/-- One request on the handle: it then holds what the reference has. -/
theorem step (h : Holds s ino fh p a) (hr : ThroughHandle ino fh r) (hempty : EmptyIfTruncated a r) :
    Holds (next s r) ino fh p (arrayAfter a r) := by
  cases hr with
  | write offset data => exact h.next_write offset data
  | read offset size =>
    rw [(h.respond_read offset size).2]
    exact h
  | truncate needsUpper applied =>
    have hnil : a = [] := hempty
    subst hnil
    exact h.next_truncate needsUpper applied
  | fsync => exact h.next_fsync

/-- Any run of requests on the handle. -/
theorem run (h : Holds s ino fh p a) (hrs : ∀ r ∈ rs, ThroughHandle ino fh r)
    (hempty : EachStep arrayAfter EmptyIfTruncated a rs) :
    Holds (Fuse.run s rs) ino fh p (rs.foldl arrayAfter a) := by
  induction rs generalizing s a with
  | nil => exact h
  | cons r rs ih =>
    obtain ⟨hr, hrs⟩ := List.forall_mem_cons.mp hrs
    exact ih (h.step hr hempty.1) hrs hempty.2

/-- The last request leaves the array in the file. -/
theorem release (h : Holds s ino fh p a) :
    respond s (.release fh) = .ok .ok ∧
      contentAt (next s (.release fh)).root p = .ok a := by
  obtain ⟨dirty, hfile, hclean⟩ := h.buffer
  obtain ⟨fs', hrun, hback⟩ := run_release (fun _ => h.place) hfile
  rw [(respond_eq_ok hrun).2]
  refine ⟨(respond_eq_ok hrun).1, ?_⟩
  cases dirty with
  | false =>
    obtain rfl : fs' = s.root := hback
    exact hclean rfl
  | true => exact Placed.contentAt_eq hback

/-- Opening a file that shows `c`. -/
theorem opened (hino : s.inodes ino = some p) (hne : p ≠ whiteoutPath [])
    (hplace : CanCreate s.root p) (hcontent : contentAt s.root p = .ok c) {flags : OpenFlags}
    (hflags : flags.accmode = .readWrite) (htrunc : flags.trunc = false) (backed : Bool) :
    respond s (.openInode ino flags backed) = .ok (.opened s.nextFh) ∧
      Holds (next s (.openInode ino flags backed)) ino s.nextFh p c := by
  have hview := contentAt_eq_ok_iff.mp hcontent
  have hopen : openFile s.root p = .ok ⟨.ok c⟩ := by
    change LayerFS.openFile p s.root = _
    rw [LayerFS.openFile_eq, hview]
    rfl
  have hexists : existsAt s.root p = .ok true := by
    change LayerFS.existsAt p s.root = _
    rw [LayerFS.existsAt_eq, hview]
    rfl
  have hrun : (Fuse.step (.openInode ino flags backed)).run s = .ok (.opened s.nextFh) { s with
      nextFh := s.nextFh + 1
      openFiles := Function.update s.openFiles s.nextFh (some (.buffered p c false true)) } := by
    refine run_bind_eq_ok.mpr ⟨p, s, run_pathOf hino, ?_⟩
    refine run_bind_eq_ok.mpr ⟨s.nextFh, { s with nextFh := s.nextFh + 1 }, rfl, ?_⟩
    have hwritable : flags.writable = true := by simp [OpenFlags.writable, hflags]
    rw [if_pos hwritable]
    refine run_bind_eq_ok.mpr ⟨(), { s with nextFh := s.nextFh + 1 }, ?_, ?_⟩
    · rw [failIf, run_ask, existsInRoot, hexists]
      rfl
    refine run_bind_eq_ok.mpr ⟨c, { s with nextFh := s.nextFh + 1 }, ?_, rfl⟩
    rw [run_ask, htrunc, hopen]
    rfl
  rw [(respond_eq_ok hrun).2]
  exact ⟨(respond_eq_ok hrun).1, hino, hne, hplace, false, by simp, fun _ => hcontent⟩

end Holds

/-! ### The handle and the reference -/

/-- Open a file, make requests on the handle in which truncations come only while the
array is empty, and release it: every read replies the slice of the array, and the file
then shows the array. -/
theorem handle_is_array (s : Fuse Tree Tree) (ino : Ino) (p : Path) (c : Bytes)
    (hino : s.inodes ino = some p) (hcontent : contentAt s.root p = .ok c)
    (hne : p ≠ whiteoutPath []) (hplace : CanCreate s.root p) (flags : OpenFlags)
    (hflags : flags.accmode = .readWrite) (htrunc : flags.trunc = false) (backed : Bool)
    (rs : List Request)
    (hrs : ∀ r ∈ rs, ThroughHandle ino s.nextFh r)
    (hempty : EachStep arrayAfter EmptyIfTruncated c rs) :
    (∀ rs₁ offset size rs₂, rs = rs₁ ++ .read s.nextFh offset size :: rs₂ →
        respond (run (next s (.openInode ino flags backed)) rs₁) (.read s.nextFh offset size) =
          .ok (.data (slice (rs₁.foldl arrayAfter c) offset size))) ∧
      respond (run (next s (.openInode ino flags backed)) rs) (.release s.nextFh) = .ok .ok ∧
      contentAt (next (run (next s (.openInode ino flags backed)) rs) (.release s.nextFh)).root p =
        .ok (rs.foldl arrayAfter c) := by
  have hopened := (Holds.opened hino hne hplace hcontent hflags htrunc backed).2
  refine ⟨?_, (hopened.run hrs hempty).release⟩
  rintro rs₁ offset size rs₂ rfl
  have hrs₁ : ∀ r ∈ rs₁, ThroughHandle ino s.nextFh r := fun r hr => hrs r (by simp [hr])
  exact ((hopened.run hrs₁ (eachStep_append.mp hempty).1).respond_read offset size).1

/-- A file with two bytes, known to the kernel as inode 2. -/
def twoBytes : Fuse Tree Tree :=
  next (new ⟨Tree.ofEntries [(["f".toList], .file [1, 2])], []⟩ [] 8) (.lookup rootIno "f".toList)

/-- Opening for reading and writing, without `O_TRUNC`. -/
def readWrite : OpenFlags := ⟨.readWrite, false, false⟩

theorem canCreate_twoBytes : CanCreate twoBytes.root ["f".toList] where
  parent := by decide
  noFile q b hq hne hfile := by
    have hnil : q = [] := List.prefix_nil.mp (prefix_dropLast_of_ne hq hne)
    rw [hnil, Tree.get?_root] at hfile
    cases hfile
  entry := ⟨[1, 2], by decide⟩

theorem handle_is_array_twoBytes :
    ∃ rs : List Request, rs = [.write 1 3 [9], .fsync 1, .read 1 1 9] ∧
      respond (run (next twoBytes (.openInode 2 readWrite false)) rs) (.release 1) = .ok .ok ∧
      contentAt (next (run (next twoBytes (.openInode 2 readWrite false)) rs) (.release 1)).root
        ["f".toList] = .ok [1, 2, 0, 9] := by
  refine ⟨_, rfl, (handle_is_array twoBytes 2 ["f".toList] [1, 2] (by decide) (by decide)
    (by decide) canCreate_twoBytes readWrite rfl rfl false [.write 1 3 [9], .fsync 1, .read 1 1 9] ?_
    (by simp [EachStep, EmptyIfTruncated])).2⟩
  have hfh : twoBytes.nextFh = 1 := by decide
  simp [hfh, ThroughHandle.write, ThroughHandle.fsync, ThroughHandle.read]

/-- Opening with truncation as the kernel asks for it: `open`, then `setattr` with size
0, then the write and the release. The second byte of the old file is still read, and is
written back. -/
theorem stale_after_truncate :
    ∃ rs : List Request, rs = [.setattr 2 ⟨some 0, false, .ok ()⟩, .write 1 0 [9]] ∧
      (∀ r ∈ rs, ThroughHandle 2 twoBytes.nextFh r) ∧ CanCreate twoBytes.root ["f".toList] ∧
      contentAt twoBytes.root ["f".toList] = .ok [1, 2] ∧
      rs.foldl arrayAfter [1, 2] = [9] ∧
      respond (run (next twoBytes (.openInode 2 readWrite false)) rs) (.read 1 0 9) =
        .ok (.data [9, 2]) ∧
      contentAt (next (run (next twoBytes (.openInode 2 readWrite false)) rs) (.release 1)).root
        ["f".toList] = .ok [9, 2] := by
  refine ⟨_, rfl, ?_, canCreate_twoBytes, by decide, by decide, by decide, by decide⟩
  have hfh : twoBytes.nextFh = 1 := by decide
  simp [hfh, ThroughHandle.truncate, ThroughHandle.write]

end Rspacefs.Fuse
