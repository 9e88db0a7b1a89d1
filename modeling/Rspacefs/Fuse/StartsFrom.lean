import Rspacefs.Fuse.Fresh
import Rspacefs.Fuse.Writers

/-!
# What a writable handle starts from

`open` for writing reads the file into the buffer of the new handle, and leaves the buffer empty
when the overlay does not open the file. `create` treats a file that is there as an open, and
leaves the buffer empty whatever the file holds. `release` writes the whole buffer back, so what
is not in the buffer is lost with the first write.

## Main definitions

* `IsFile` — a path is a file with some content, which the overlay may or may not read
* `OpensWritable` — the requests that open a file for writing and keep its content
* `StartsFrom` — such a request fails, or its handle starts from the content
* `LoadedBy` — the condition under which it does

## Main results

* `run_openInode`, `run_create` — the buffers of the two handlers
* `writesInto_of_buffer` — a write and a release keep the rest of what was in the buffer
* `startsFrom_iff` — when a handle starts from the content
-/

namespace Rspacefs

open Lib LayerFS

variable {υ ℓ : Type} [PhysicalFS υ] [PhysicalFS ℓ]

/-- What the file at a path of the overlay holds, past whatever opening it checks. -/
def storedAt (fs : LayerFS υ ℓ) (p : Path) : VfsResult Bytes := do
  match ← resolve p fs with
  | some .upper => fileContent fs.upper p
  | some (.lower _ layer) => fileContent layer p
  | none => .error .fileNotFound

/-- The path is a file with content `c`: what the overlay reads, or what the file holds where
the overlay does not read it. -/
structure IsFile (fs : LayerFS υ ℓ) (p : Path) (c : Bytes) : Prop where
  ne_root : p ≠ []
  there : existsAt fs p = .ok true
  file : ∃ len, metadata fs p = .ok ⟨.file, len⟩
  read : ∀ d, contentAt fs p = .ok d → d = c
  stored : ∀ e, contentAt fs p = .error e → storedAt fs p = .ok c

namespace Fuse

variable {s : Fuse υ ℓ} {p : Path} {c data : Bytes} {r : Request} {ino parent : Ino} {name : Name}
  {fh : Fh} {flags : OpenFlags}

/-- The requests that open `p` for writing and keep what it holds. -/
inductive OpensWritable (s : Fuse υ ℓ) (p : Path) : Request → Prop
  | openInode {ino : Ino} {flags : OpenFlags} {backed : Bool} : s.inodes ino = some p →
      flags.writable = true → flags.trunc = false → OpensWritable s p (.openInode ino flags backed)
  | create {parent : Ino} {name : Name} {flags : OpenFlags} : childPath s parent name = some p →
      flags.excl = false → flags.trunc = false → OpensWritable s p (.create parent name flags)

/-- The reply has a handle. -/
def Gives (s : Fuse υ ℓ) (r : Request) (fh : Fh) : Prop :=
  respond s r = .ok (.opened fh) ∨ ∃ attr, respond s r = .ok (.created attr fh)

/-- The bytes outside of a range are now what they were. -/
def KeptOutside (off len : Nat) (was now : Bytes) : Prop :=
  ∀ i < was.length, i < off ∨ off + len ≤ i → now[i]? = was[i]?

/-- A write on the handle, and a release that is answered ok, keep the bytes of `c` outside of
what was written. -/
def WritesInto (s : Fuse υ ℓ) (fh : Fh) (p : Path) (c : Bytes) : Prop :=
  ∀ off data, respond s (.write fh off data) = .ok (.written data.length) ∧
    (respond (next s (.write fh off data)) (.release fh) = .ok .ok →
      ∃ c', contentAt (next (next s (.write fh off data)) (.release fh)).root p = .ok c' ∧
        KeptOutside off data.length c c')

/-- The request is answered with an error, or with a handle that starts from `c`. What is written
back is `c` but for what was written, where no link leads the write elsewhere. -/
def StartsFrom (s : Fuse υ ℓ) (p : Path) (c : Bytes) (r : Request) : Prop :=
  (∃ e, respond s r = .error e) ∨ ∃ fh, Gives s r fh ∧
    (∃ dirty, (next s r).openFiles fh = some (.buffered p c dirty true)) ∧
      (NoLinks p s.root.upper → WritesInto (next s r) fh p c)

/-- The overlay opens the file, for `open`; there is nothing to lose, for either. -/
def LoadedBy (s : Fuse υ ℓ) (p : Path) (c : Bytes) : Request → Prop
  | .openInode _ _ _ => (∃ reader, openFile s.root p = .ok reader) ∨ c = []
  -- a name that is no name is refused
  | .create _ name _ => ¬ ValidName name ∨ c = []
  | _ => True

/-! ### The two handlers -/

/-- `open` for writing, once the buffer is read: what the overlay reads, or nothing where it does
not open the file. -/
theorem run_openInode (hino : s.inodes ino = some p) (hwritable : flags.writable = true)
    (htrunc : flags.trunc = false) (hthere : existsAt s.root p = .ok true) (backed : Bool)
    (hload : contentAt s.root p = .ok data ∨ (∃ e, openFile s.root p = .error e) ∧ data = []) :
    (step (.openInode ino flags backed)).run s = .ok (.opened s.nextFh) { s with
      nextFh := s.nextFh + 1
      openFiles := Function.update s.openFiles s.nextFh (some (.buffered p data false true)) } := by
  refine run_bind_eq_ok.mpr ⟨p, s, run_pathOf hino, ?_⟩
  refine run_bind_eq_ok.mpr ⟨_, _, run_allocFh, ?_⟩
  rw [if_pos hwritable]
  refine run_bind_eq_ok.mpr ⟨(), { s with nextFh := s.nextFh + 1 }, ?_, ?_⟩
  · rw [failIf, run_ask, existsInRoot, hthere]
    rfl
  refine run_bind_eq_ok.mpr ⟨data, { s with nextFh := s.nextFh + 1 }, ?_, rfl⟩
  rw [run_ask, htrunc]
  rcases hload with hcontent | ⟨⟨e, hopen⟩, rfl⟩
  · obtain ⟨reader, hopen, hread⟩ := except_bind_eq_ok.mp hcontent
    simp only [hopen, hread]
    rfl
  · simp only [hopen]
    rfl

/-- A file that opens and cannot be read is answered at once. -/
theorem respond_openInode_error (hino : s.inodes ino = some p) (hwritable : flags.writable = true)
    (htrunc : flags.trunc = false) (hthere : existsAt s.root p = .ok true) (backed : Bool)
    {reader : Reader} (hopen : openFile s.root p = .ok reader) {e : VfsError}
    (hread : reader.readToEnd = .error e) :
    respond s (.openInode ino flags backed) = .error .eio := by
  have hrun : (step (.openInode ino flags backed)).run s =
      .error .eio { s with nextFh := s.nextFh + 1 } := by
    refine (run_bind_of_ok (run_pathOf hino)).trans ?_
    refine (run_bind_of_ok run_allocFh).trans ?_
    have hexists : (failIf .enoent fun s => !existsInRoot p s).run
        { s with nextFh := s.nextFh + 1 } = .ok () { s with nextFh := s.nextFh + 1 } := by
      rw [failIf, run_ask, existsInRoot, hthere]
      rfl
    rw [if_pos hwritable]
    refine (run_bind_of_ok hexists).trans ?_
    rw [EStateM.run_bind, run_ask, htrunc]
    simp only [hopen, hread]
    rfl
  rw [respond, hrun]

/-- `create` on a file that is there: the buffer is empty. -/
theorem run_create (hpath : childPath s parent name = some p) (hname : ValidName name)
    (hexcl : flags.excl = false) (htrunc : flags.trunc = false)
    (hthere : existsAt s.root p = .ok true) :
    ∃ attr s', (step (.create parent name flags)).run s = .ok (.created attr s.nextFh) s' ∧
      s'.root = s.root ∧ s'.openFiles s.nextFh = some (.buffered p [] false true) := by
  obtain ⟨d, hd, rfl⟩ := Option.map_eq_some_iff.mp hpath
  have hintern : ∃ ino s₁, (internPath (d ++ [name])).run s = .ok ino s₁ ∧ s₁.root = s.root ∧
      s₁.nextFh = s.nextFh := by
    rw [run_internPath]
    cases s.paths (d ++ [name]) with
    | some ino => exact ⟨ino, s, rfl, rfl, rfl⟩
    | none => exact ⟨_, _, rfl, rfl, rfl⟩
  obtain ⟨ino, s₁, hino, hroot, hfh⟩ := hintern
  refine ⟨makeAttr ino (d ++ [name]) .file 0 s₁.root, { s₁ with
    nextFh := s₁.nextFh + 1
    openFiles := Function.update s₁.openFiles s₁.nextFh
      (some (.buffered (d ++ [name]) [] false true)) }, ?_, hroot, ?_⟩
  · refine run_bind_eq_ok.mpr ⟨d, s, run_pathOf hd, ?_⟩
    refine run_bind_eq_ok.mpr ⟨_, s, run_join hname, ?_⟩
    refine run_bind_eq_ok.mpr ⟨true, s, ?_, ?_⟩
    · rw [run_ask, existsInRoot, hthere]
      rfl
    refine run_bind_eq_ok.mpr ⟨(), s, by rw [failIf, run_ask, hexcl]; rfl, ?_⟩
    -- the file is there and `O_TRUNC` is not asked for, so nothing is read or written
    refine run_bind_eq_ok.mpr ⟨(), s, by rw [htrunc]; rfl, ?_⟩
    refine run_bind_eq_ok.mpr ⟨ino, s₁, hino, ?_⟩
    rw [← hfh]
    rfl
  · rw [← hfh]
    exact Function.update_self _ _ _

/-! ### The write-back -/

/-- A handle that starts from `c` writes `c` back but for what was written. -/
theorem writesInto_of_buffer [LocalPhysicalFS υ] {dirty : Bool} (hne : p ≠ [])
    (hlinks : NoLinks p s.root.upper)
    (hfile : s.openFiles fh = some (.buffered p c dirty true)) : WritesInto s fh p c := by
  intro off data
  obtain ⟨hreply, hnext⟩ := respond_eq_ok (run_write hfile off data)
  refine ⟨hreply, ?_⟩
  intro hok
  have hroot : NoLinks p (next s (.write fh off data)).root.upper := by
    rw [hnext]
    exact hlinks
  have hwritten : (next s (.write fh off data)).openFiles fh =
      some (.buffered p (splice c off data) true true) := by
    rw [hnext]
    exact Function.update_self _ _ _
  have hshown := next_of_ok (release_written hne hroot hwritten) hok
  refine ⟨_, hshown.content, ?_⟩
  intro i hi hout
  rcases hout with hbefore | hbehind
  · exact getElem?_splice_before hbefore hi
  · exact getElem?_splice_behind hbehind

/-- The handle of a run decides whether it starts from `c`. -/
theorem startsFrom_iff_buffer [LocalPhysicalFS υ] {reply : Reply} {s' : Fuse υ ℓ} (hne : p ≠ [])
    (hrun : (step r).run s = .ok reply s')
    (hreply : reply = .opened fh ∨ ∃ attr, reply = .created attr fh) (hroot : s'.root = s.root)
    (hfile : s'.openFiles fh = some (.buffered p data false true)) :
    StartsFrom s p c r ↔ data = c := by
  obtain ⟨hrespond, hnext⟩ := respond_eq_ok hrun
  constructor
  · intro h
    rcases h with ⟨e, he⟩ | ⟨fh', hgives, ⟨dirty, hbuffer⟩, -⟩
    · cases hrespond.symm.trans he
    · -- there is one reply, with one handle
      have hfh : fh' = fh := by
        unfold Gives at hgives
        rw [hrespond] at hgives
        rcases hreply with rfl | ⟨attr, rfl⟩
        · rcases hgives with h | ⟨attr', h⟩ <;> cases h
          rfl
        · rcases hgives with h | ⟨attr', h⟩ <;> cases h
          rfl
      rw [hfh, hnext, hfile] at hbuffer
      cases hbuffer
      rfl
  · intro heq
    subst heq
    right
    refine ⟨fh, ?_, ⟨false, by rw [hnext, hfile]⟩, ?_⟩
    · unfold Gives
      rw [hrespond]
      exact hreply.imp (congrArg _) fun ⟨attr, h⟩ => ⟨attr, congrArg _ h⟩
    · intro hlinks
      rw [hnext]
      rw [← hroot] at hlinks
      exact writesInto_of_buffer hne hlinks hfile

/-! ### The main result -/

/-- A writable handle starts from the content of its file exactly when `open` can open the file
through the overlay, or there is nothing in it; for `create`, exactly when there is nothing. -/
theorem startsFrom_iff [LocalPhysicalFS υ] (s : Fuse υ ℓ) (p : Path) (c : Bytes) (r : Request)
    (hfile : IsFile s.root p c) (hr : OpensWritable s p r) :
    StartsFrom s p c r ↔ LoadedBy s p c r := by
  cases hr with
  | @openInode ino flags backed hino hwritable htrunc =>
    cases hopen : openFile s.root p with
    | error e =>
      -- what cannot be opened is taken to be empty
      have hrun := run_openInode hino hwritable htrunc hfile.there backed (.inr ⟨⟨e, hopen⟩, rfl⟩)
      rw [startsFrom_iff_buffer hfile.ne_root hrun (.inl rfl) rfl (Function.update_self _ _ _)]
      constructor
      · intro heq
        exact Or.inr heq.symm
      · intro h
        rcases h with ⟨reader, hreader⟩ | heq
        · cases hopen.symm.trans hreader
        · exact heq.symm
    | ok reader =>
      refine iff_of_true ?_ (Or.inl ⟨reader, hopen⟩)
      cases hread : reader.readToEnd with
      | error e =>
        exact Or.inl ⟨_, respond_openInode_error hino hwritable htrunc hfile.there backed hopen hread⟩
      | ok data =>
        have hcontent : contentAt s.root p = .ok data := by
          rw [contentAt, hopen, ok_bind, hread]
        have hrun := run_openInode hino hwritable htrunc hfile.there backed (.inl hcontent)
        rw [startsFrom_iff_buffer hfile.ne_root hrun (.inl rfl) rfl (Function.update_self _ _ _)]
        exact hfile.read data hcontent
  | @create parent name flags hpath hexcl htrunc =>
    -- `create` does not look at what is there: the buffer is empty
    by_cases hname : ValidName name
    · obtain ⟨attr, s', hrun, hroot, hbuffer⟩ := run_create hpath hname hexcl htrunc hfile.there
      rw [startsFrom_iff_buffer hfile.ne_root hrun (.inr ⟨attr, rfl⟩) hroot hbuffer]
      constructor
      · intro heq
        exact Or.inr heq.symm
      · intro h
        rcases h with hno | heq
        · exact absurd hname hno
        · exact heq.symm
    · refine iff_of_true (Or.inl ⟨.einval, ?_⟩) (Or.inl hname)
      obtain ⟨d, hd, -⟩ := Option.map_eq_some_iff.mp hpath
      have hrun : (step (.create parent name flags)).run s = .error .einval s := by
        refine (run_bind_of_ok (run_pathOf hd)).trans ?_
        rw [Fuse.join.eq_def, if_neg hname]
        rfl
      rw [respond, hrun]

theorem isFile_twoBytes : IsFile twoBytes.root ["f".toList] [1, 2] where
  ne_root := by decide
  there := by decide
  file := ⟨2, by decide⟩
  read := by
    intro d hd
    have hcontent : contentAt twoBytes.root ["f".toList] = .ok [1, 2] := by decide
    exact Except.ok.inj (hd.symm.trans hcontent)
  stored := by
    intro e he
    have hcontent : contentAt twoBytes.root ["f".toList] = .ok [1, 2] := by decide
    cases hcontent.symm.trans he

theorem startsFrom_twoBytes :
    StartsFrom twoBytes ["f".toList] [1, 2] (.openInode 2 readWrite false) := by
  apply (startsFrom_iff twoBytes ["f".toList] [1, 2] (.openInode 2 readWrite false)
    isFile_twoBytes (.openInode (by decide) rfl rfl)).mpr
  exact Or.inl ⟨_, rfl⟩

/-- `create` on the file, a write of its second byte, and the release: its first byte is lost. -/
theorem create_starts_empty :
    IsFile twoBytes.root ["f".toList] [1, 2] ∧
      OpensWritable twoBytes ["f".toList] (.create rootIno "f".toList readWrite) ∧
      contentAt (run twoBytes [.create rootIno "f".toList readWrite, .write 1 1 [9],
        .release 1]).root ["f".toList] = .ok [0, 9] ∧
      ¬ StartsFrom twoBytes ["f".toList] [1, 2] (.create rootIno "f".toList readWrite) := by
  have hpath : childPath twoBytes rootIno "f".toList = some ["f".toList] := by decide
  refine ⟨isFile_twoBytes, .create hpath rfl rfl, by decide, ?_⟩
  have hexcl : readWrite.excl = false := rfl
  obtain ⟨attr, s', hrun, hroot, hbuffer⟩ :=
    run_create hpath (by decide) hexcl rfl isFile_twoBytes.there
  rw [startsFrom_iff_buffer isFile_twoBytes.ne_root hrun (.inr ⟨attr, rfl⟩) hroot hbuffer]
  decide

end Fuse

end Rspacefs
