import Mathlib.Data.Set.Card
import Mathlib.Order.Interval.Finset.Nat
import Rspacefs.Lib.Follows
import Rspacefs.Fuse.Handle
import Rspacefs.Fuse.Touch

/-!
# The gauge of open handles

`open_handles` of `rspacefs-fuse/src/stats.rs` is counted up by `open` and `create`, next to each
insertion into the open files, and down by `release`; a pivot reports it, and the old upper
directory is given up when it reads zero. `release` counts down before it looks the handle up: a
`release` of a handle that is not open leaves the gauge one lower than the number of open files for
good.

## Main definitions

* `Gauged` — the daemon with its gauge, and `Gauged.step`
* `Fuse.handles`, `Gauged.Counts` — the handles that are open, and that the gauge is their number
* `Gauged.missed` — the requests of a run that release a handle which is not open
* `Gauged.replied` — the handles replied in a run

## Main results

* `Gauged.step_counted` — how far one request moves the gauge from the number of open files
* `Gauged.run_counted` — how far a run does
* `Gauged.replied_nodup` — no handle is replied twice
* `Gauged.words_suffice` — how long a run may be for the words that the source counts in
* `Gauged.counts_iff` — in which runs the gauge counts the open files
-/

namespace Rspacefs

open Lib

/-- The daemon and the gauge of its statistics. -/
structure Gauged (υ ℓ : Type) where
  fuse : Fuse υ ℓ
  openHandles : Int

/-- A handler that counts. -/
abbrev GaugedM (υ ℓ α : Type) := EStateM Errno (Gauged υ ℓ) α

namespace Gauged

variable {υ ℓ : Type}

/-- A new adapter, with nothing counted. -/
def new (root : LayerFS υ ℓ) (verifiedLayers : List Bool) (frames : Nat) : Gauged υ ℓ :=
  ⟨Fuse.new root verifiedLayers frames, 0⟩

/-- What does not touch the gauge. -/
def onFuse {α : Type} (x : FuseM υ ℓ α) : GaugedM υ ℓ α :=
  onPart fuse (fun s g => { g with fuse := s }) x

/-- `open_handles.fetch_add` and, for a negative number, `fetch_sub`. -/
def count (n : Int) : GaugedM υ ℓ Unit :=
  modify fun g => { g with openHandles := g.openHandles + n }

/-- Each of the insertions has the gauge counted up in front of it. -/
def insertFile (fh : Fh) (file : OpenFile) : GaugedM υ ℓ Unit := do
  count 1
  onFuse (Fuse.insertFile fh file)

variable [PhysicalFS υ] [PhysicalFS ℓ]

/-- Open for writing: the file is read into memory. -/
def openBuffered (path : Path) (flags : OpenFlags) (fh : Fh) : GaugedM υ ℓ Reply := do
  onFuse (Fuse.failIf .enoent fun s => !Fuse.existsInRoot path s)
  let data ← onFuse (ask fun s =>
    if flags.trunc then .ok [] else
      match openFile s.root path with
      | .error _ => .ok []
      | .ok reader => match reader.readToEnd with
        | .ok data => .ok data
        | .error _ => .error .eio)
  insertFile fh (.buffered path data false true)
  return .opened fh

/-- Open for reading: passthrough, be the backing file registered already or not, else through the
overlay. -/
def openReadOnly (ino : Ino) (path : Path) (backed : Bool) (fh : Fh) : GaugedM υ ℓ Reply := do
  match ← onFuse (Fuse.openBacking ino path backed) with
  | some backing =>
    insertFile fh (.passthrough backing)
    return .openedPassthrough fh backing
  | none =>
    onFuse (Fuse.failIf .enoent fun s => !Fuse.existsInRoot path s)
    let reader ← onFuse (Fuse.onRoot .eio (ask fun fs : LayerFS υ ℓ => openFile fs path))
    insertFile fh (.streaming reader)
    return .opened fh

def openInode (ino : Ino) (flags : OpenFlags) (backed : Bool) : GaugedM υ ℓ Reply := do
  let path ← onFuse (Fuse.pathOf ino)
  let fh ← onFuse Fuse.allocFh
  if flags.writable then openBuffered path flags fh else openReadOnly ino path backed fh

/-- The gauge is counted down before the handle is looked up. -/
def release (fh : Fh) : GaugedM υ ℓ Reply := do
  count (-1)
  onFuse (Fuse.release fh)

def create (parent : Ino) (name : Name) (flags : OpenFlags) : GaugedM υ ℓ Reply := do
  let parentPath ← onFuse (Fuse.pathOf parent)
  let path ← onFuse (Fuse.join parentPath name)
  let there ← onFuse (ask fun s => .ok (Fuse.existsInRoot path s))
  onFuse (Fuse.failIf .eexist fun _ => there && flags.excl)
  onFuse (Fuse.doIf (!there || flags.trunc) do
    let _ ← Fuse.onRoot .eio (VfsPath.createFile path))
  let ino ← onFuse (Fuse.internPath path)
  let attr ← onFuse (Fuse.attrNow ino path .file)
  let fh ← onFuse Fuse.allocFh
  insertFile fh (.buffered path [] false true)
  return .created attr fh

/-- The handler of a request; three of them count. -/
def step : Request → GaugedM υ ℓ Reply
  | .openInode ino flags backed => openInode ino flags backed
  | .release fh => release fh
  | .create parent name flags => create parent name flags
  | r => onFuse (Fuse.step r)

def next (g : Gauged υ ℓ) (r : Request) : Gauged υ ℓ := finalState (step r) g

def respond (g : Gauged υ ℓ) (r : Request) : Except Errno Reply :=
  match (step r).run g with
  | .ok reply _ => .ok reply
  | .error e _ => .error e

def run (g : Gauged υ ℓ) (rs : List Request) : Gauged υ ℓ := rs.foldl next g

end Gauged

/-- The handle that a reply gives out. -/
def Reply.handle? : Reply → Option Fh
  | .opened fh | .openedPassthrough fh _ | .created _ fh => some fh
  | _ => none

variable {υ ℓ α β : Type} {s : Fuse υ ℓ} {fh : Fh} {k : Int}

/-- The keys of the open files. -/
def Fuse.handles (s : Fuse υ ℓ) : Set Fh := { fh | (s.openFiles fh).isSome }

namespace Gauged

/-- The gauge is the number of open files. -/
def Counts (g : Gauged υ ℓ) : Prop := g.openHandles = g.fuse.handles.ncard

/-- A release names a handle that is open. -/
def ReleasesOpen (g : Gauged υ ℓ) : Request → Prop
  | .release fh => fh ∈ g.fuse.handles
  | _ => True

end Gauged

/-! ### The handles that are open -/

namespace Fuse

section Open

instance : RootFree (handles : Fuse υ ℓ → _) := ⟨fun _ _ => rfl⟩
instance : TablesFree (handles : Fuse υ ℓ → _) := ⟨fun _ _ _ _ => rfl⟩
instance : CacheFree (handles : Fuse υ ℓ → _) := ⟨fun _ _ _ => rfl⟩

theorem Issued.finite (h : Issued s) : s.handles.Finite := (Set.finite_Iio s.nextFh).subset h

theorem Issued.ncard_le (h : Issued s) : s.handles.ncard ≤ s.nextFh := by
  calc s.handles.ncard ≤ (Set.Iio s.nextFh).ncard := Set.ncard_le_ncard h (Set.finite_Iio _)
    _ = s.nextFh := by rw [Set.ncard_eq_toFinset_card', Set.toFinset_Iio, Nat.card_Iio]

theorem Issued.next_notMem (h : Issued s) : s.nextFh ∉ s.handles :=
  fun hmem => Nat.lt_irrefl _ (h s.nextFh hmem)

theorem handles_insert (file : OpenFile) :
    handles { s with openFiles := Function.update s.openFiles fh (some file) } =
      insert fh s.handles := by
  ext fh'
  by_cases h : fh' = fh
  · subst h
    simp [handles]
  · simp [handles, h]

theorem handles_remove :
    handles { s with openFiles := Function.update s.openFiles fh none } = s.handles \ {fh} := by
  ext fh'
  by_cases h : fh' = fh
  · subst h
    simp [handles]
  · simp [handles, h]

/-- Storing a new state of a file that is open. -/
theorem updateFile_handles (b : Set Fh) (file : OpenFile) :
    Triple (fun s : Fuse υ ℓ => s.handles = b ∧ fh ∈ s.handles) (insertFile fh file)
      (fun _ s => s.handles = b) (fun s => s.handles = b) := by
  refine Triple.modify fun s hs => ?_
  rw [handles_insert, Set.insert_eq_of_mem hs.2]
  exact hs.1

theorem fileOf_handles (b : Set Fh) :
    Triple (fun s : Fuse υ ℓ => s.handles = b) (fileOf fh)
      (fun _ s => s.handles = b ∧ fh ∈ s.handles) (fun s => s.handles = b) := by
  refine Triple.ask (fun s f hs hf => ⟨hs, ?_⟩) fun _ hs => hs
  cases hopen : s.openFiles fh with
  | none => simp [hopen] at hf
  | some file => simp [handles, hopen]

theorem write_handles (offset : Nat) (data : Bytes) :
    Keeps handles (write fh offset data : FuseM υ ℓ Reply) := by
  intro b
  refine Triple.bind (fileOf_handles b) fun f => ?_
  cases f with
  | passthrough backing => exact Triple.throw _ fun _ h => h.1
  | streaming reader => exact Triple.throw _ fun _ h => h.1
  | buffered path buf dirty writable =>
    refine Triple.bind (Triple.ask (fun _ _ h _ => h) fun _ h => h.1) fun _ => ?_
    exact Triple.bind (updateFile_handles b _) fun _ => Triple.pure _ fun _ h => h

variable [PhysicalFS υ] [PhysicalFS ℓ]

theorem fsync_handles : Keeps handles (fsync fh : FuseM υ ℓ Reply) := by
  intro b
  refine Triple.bind (fileOf_handles b) fun f => ?_
  cases f with
  | passthrough backing => exact Triple.pure _ fun _ h => h.1
  | streaming reader => exact Triple.pure _ fun _ h => h.1
  | buffered path data dirty writable =>
    refine Triple.bind (R := fun _ s => s.handles = b) (Triple.ite (fun _ => ?_)
      fun _ => Triple.pure _ fun _ h => h.1) fun _ => Triple.pure _ fun _ h => h
    have hback : Triple (fun s : Fuse υ ℓ => s.handles = b ∧ fh ∈ s.handles) (writeBack path data)
        (fun _ s => s.handles = b ∧ fh ∈ s.handles) (fun s => s.handles = b) :=
      ((writeBack_keeps data).triple (I := fun t => t = b ∧ fh ∈ t)).weaken (fun _ h => h)
        (fun _ _ h => h) fun _ h => h.1
    exact Triple.bind hback fun _ => updateFile_handles b _

/-- What a release that finds its handle leaves open, also when the write-back fails. -/
theorem release_handles (hopen : fh ∈ s.handles) :
    handles (finalState (release fh) s) = s.handles \ {fh} := by
  obtain ⟨file, hfile⟩ := Option.isSome_iff_exists.mp hopen
  have hrest : Triple (· = s) (release fh : FuseM υ ℓ Reply)
      (fun _ s' => s'.handles = s.handles \ {fh}) (fun s' => s'.handles = s.handles \ {fh}) := by
    refine Triple.bind_run (run_fileOf hfile) ?_
    refine Triple.bind (R := fun _ s' => s'.handles = s.handles \ {fh})
      (Triple.modify fun _ hs => hs ▸ handles_remove) fun _ => ?_
    cases file with
    | passthrough backing => exact Triple.pure _ fun _ h => h
    | streaming reader => exact Triple.pure _ fun _ h => h
    | buffered path data dirty writable =>
      exact (Keeps.bind (doIf_keeps (writeBack_keeps data)) fun _ => Keeps.pure _) _
  exact hrest.finalState rfl

theorem run_release_unknown (hopen : fh ∉ s.handles) :
    (release fh).run s = .error .ebadf s := by
  have hnone : s.openFiles fh = none := Option.not_isSome_iff_eq_none.mp hopen
  have hfind : (fileOf fh).run s = .error .ebadf s := by
    rw [fileOf, run_ask, hnone]
  rw [release, EStateM.run_bind, hfind]

/-- The requests that open or close nothing. -/
def Keeping : Request → Prop
  | .openInode _ _ _ | .release _ | .create _ _ _ => False
  | _ => True

theorem step_handles {r : Request} (h : Keeping r) :
    Keeps handles (step r : FuseM υ ℓ Reply) := by
  cases r with
  | lookup parent name => exact lookup_keeps _ _
  | getattr ino => exact getattr_keeps
  | setattr ino attrs => exact setattr_keeps _
  | readdir ino offset capacity => exact readdir_keeps _ _
  | mkdir parent name => exact mkdir_keeps _ _
  | rmdir parent name => exact rmdir_keeps _ _
  | openInode ino flags backed => exact h.elim
  | read fh offset size => exact read_keeps _ _
  | write fh offset data => exact write_handles _ _
  | release fh => exact h.elim
  | create parent name flags => exact h.elim
  | unlink parent name => exact unlink_keeps _ _
  | rename parent name newparent newname => exact rename_keeps _ _ _ _
  | readlink ino => exact readlink_keeps
  | symlink parent name link => exact symlink_keeps _ _ _
  | setxattr ino applied | removexattr ino applied => exact changeXattr_keeps _
  | fsync fh => exact fsync_handles
  | flush => exact Keeps.pure _

end Open

/-! ### The handles that are given out -/

section GivenOut

/-- A handler whose reply gives out no handle. -/
def Silent (x : FuseM υ ℓ Reply) : Prop :=
  Triple (fun _ => True) x (fun reply _ => reply.handle? = none) (fun _ => True)

theorem Silent.pure {reply : Reply} (h : reply.handle? = none) :
    Silent (Pure.pure reply : FuseM υ ℓ Reply) :=
  Triple.pure _ fun _ _ => h

theorem Silent.throw (e : Errno) : Silent (MonadExcept.throw e : FuseM υ ℓ Reply) :=
  Triple.throw _ fun _ h => h

theorem Silent.bind {x : FuseM υ ℓ α} {f : α → FuseM υ ℓ Reply} (hf : ∀ a, Silent (f a)) :
    Silent (x >>= f) :=
  Triple.bind Triple.true hf

theorem read_silent (offset size : Nat) : Silent (read fh offset size : FuseM υ ℓ Reply) := by
  refine Silent.bind fun file => ?_
  cases file with
  | passthrough backing => exact Silent.throw _
  | streaming reader =>
    dsimp only
    split
    · exact Silent.pure rfl
    · exact Silent.throw _
  | buffered path data dirty writable => exact Silent.pure rfl

theorem write_silent (offset : Nat) (data : Bytes) :
    Silent (write fh offset data : FuseM υ ℓ Reply) := by
  refine Silent.bind fun file => ?_
  cases file with
  | passthrough backing => exact Silent.throw _
  | streaming reader => exact Silent.throw _
  | buffered path buf dirty writable =>
    exact Silent.bind fun _ => Silent.bind fun _ => Silent.pure rfl

/-- Inserting a file at a handle that was given out, and replying the handle. -/
theorem insertFile_gives {file : OpenFile} {reply : Reply} (hreply : reply.handle? = some fh) :
    Triple (fun s : Fuse υ ℓ => fh < s.nextFh)
      (do
        insertFile fh file
        return reply : FuseM υ ℓ Reply)
      (fun reply s => reply.handle? = some fh ∧ fh < s.nextFh) (fun _ => True) :=
  Triple.bind (Triple.modify (Q := fun _ s => fh < s.nextFh) fun _ h => h) fun _ =>
    Triple.pure _ fun _ h => ⟨hreply, h⟩

/-- What does not touch the open files keeps it that a handle was given out. -/
theorem given_triple {x : FuseM υ ℓ α} (hx : Keeps files x) :
    Triple (fun s => fh < s.nextFh) x (fun _ s => fh < s.nextFh) (fun _ => True) :=
  (hx.triple (I := fun t => fh < t.2)).forget

/-- A handle is given out, and replied in the end. -/
theorem allocFh_gives {f : Fh → FuseM υ ℓ Reply} (n : Fh)
    (hf : Triple (fun s : Fuse υ ℓ => n < s.nextFh) (f n)
      (fun reply s => reply.handle? = some n ∧ n < s.nextFh) (fun _ => True)) :
    Triple (fun s : Fuse υ ℓ => s.nextFh = n) (allocFh >>= f)
      (fun reply s => reply.handle? = some n ∧ n < s.nextFh) (fun _ => True) := by
  refine Triple.of_forall fun s hs => Triple.bind_run run_allocFh ?_
  subst hs
  exact hf.from_state (Nat.lt_succ_self s.nextFh)

variable [PhysicalFS υ] [PhysicalFS ℓ]

theorem nextFh_mono (s : Fuse υ ℓ) (r : Request) : s.nextFh ≤ (next s r).nextFh := by
  -- only giving out a handle changes the next one
  have hstable : Stable (fun t => s.nextFh ≤ t.2) (fun _ => True) :=
    ⟨fun _ _ h => Nat.le_succ_of_le h, fun _ _ _ h => Nat.le_succ_of_le h, fun _ _ _ _ _ _ h => h⟩
  exact step_stable hstable (fun _ _ => True.intro) (Nat.le_refl s.nextFh)

theorem release_silent : Silent (release fh : FuseM υ ℓ Reply) := by
  refine Silent.bind fun file => Silent.bind fun _ => ?_
  cases file with
  | passthrough backing => exact Silent.pure rfl
  | streaming reader => exact Silent.pure rfl
  | buffered path data dirty writable => exact Silent.bind fun _ => Silent.pure rfl

theorem fsync_silent : Silent (fsync fh : FuseM υ ℓ Reply) := by
  refine Silent.bind fun file => ?_
  cases file with
  | passthrough backing => exact Silent.pure rfl
  | streaming reader => exact Silent.pure rfl
  | buffered path data dirty writable => exact Silent.bind fun _ => Silent.pure rfl

theorem readlink_silent (ino : Ino) : Silent (readlink ino : FuseM υ ℓ Reply) := by
  refine Silent.bind fun path => Triple.ask (fun s reply _ h => ?_) fun _ h => h
  cases hlayer : physicalForWithLayer path s.root with
  | none => simp [hlayer] at h
  | some i =>
    rw [hlayer] at h
    dsimp only at h
    split at h
    · cases h
      rfl
    · cases h

theorem setattr_silent (ino : Ino) (attrs : SetAttr) :
    Silent (setattr ino attrs : FuseM υ ℓ Reply) :=
  Silent.bind fun _ => Silent.bind fun _ => Silent.bind fun _ => Silent.bind fun _ =>
    Silent.pure rfl

/-- The requests that open. -/
def Opening : Request → Prop
  | .openInode _ _ _ | .create _ _ _ => True
  | _ => False

/-- The others give out no handle. -/
theorem step_silent {r : Request} (h : ¬ Opening r) : Silent (step r : FuseM υ ℓ Reply) := by
  cases r with
  | lookup parent name =>
    exact Silent.bind fun _ => Silent.bind fun _ => Silent.bind fun _ => Silent.bind fun _ =>
      Silent.bind fun _ => Silent.pure rfl
  | getattr ino => exact Silent.bind fun _ => Silent.bind fun _ => Silent.pure rfl
  | setattr ino attrs => exact setattr_silent ino attrs
  | readdir ino offset capacity =>
    exact Silent.bind fun _ => Silent.bind fun _ => Silent.bind fun _ => Silent.bind fun _ =>
      Silent.pure rfl
  | mkdir parent name =>
    exact Silent.bind fun _ => Silent.bind fun _ => Silent.bind fun _ => Silent.bind fun _ =>
      Silent.bind fun _ => Silent.bind fun _ => Silent.pure rfl
  | rmdir parent name | unlink parent name =>
    exact Silent.bind fun _ => Silent.bind fun _ => Silent.bind fun _ => Silent.bind fun _ =>
      Silent.bind fun _ => Silent.pure rfl
  | openInode ino flags backed => exact absurd True.intro h
  | read fh offset size => exact read_silent offset size
  | write fh offset data => exact write_silent offset data
  | release fh => exact release_silent
  | create parent name flags => exact absurd True.intro h
  | rename parent name newparent newname =>
    exact Silent.bind fun _ => Silent.bind fun _ => Silent.bind fun _ => Silent.bind fun _ =>
      Silent.bind fun _ => Silent.bind fun _ => Silent.bind fun _ => Silent.bind fun _ =>
        Silent.pure rfl
  | readlink ino => exact readlink_silent ino
  | symlink parent name link =>
    exact Silent.bind fun _ => Silent.bind fun _ => Silent.bind fun _ => Silent.bind fun _ =>
      Silent.bind fun _ => Silent.bind fun _ => Silent.bind fun _ => Silent.pure rfl
  | setxattr ino applied | removexattr ino applied =>
    exact Silent.bind fun _ => Silent.bind fun _ => Silent.bind fun _ => Silent.pure rfl
  | fsync fh => exact fsync_silent
  | flush => exact Silent.pure rfl

theorem openInode_gives (n : Fh) (ino : Ino) (flags : OpenFlags) (backed : Bool) :
    Triple (fun s => s.nextFh = n) (openInode ino flags backed : FuseM υ ℓ Reply)
      (fun reply s => reply.handle? = some n ∧ n < s.nextFh) (fun _ => True) := by
  refine Triple.bind (pathOf_keeps (g := Fuse.nextFh) n).forget fun path => allocFh_gives n ?_
  refine Triple.ite (fun _ => ?_) fun _ => ?_
  · exact Triple.bind (given_triple (failIf_keeps _ _)) fun _ =>
      Triple.bind (given_triple (Keeps.ask _)) fun _ => insertFile_gives rfl
  · refine Triple.bind (given_triple (openBacking_keeps backed)) fun backing => ?_
    cases backing with
    | some backing => exact insertFile_gives rfl
    | none =>
      exact Triple.bind (given_triple (failIf_keeps _ _)) fun _ =>
        Triple.bind (given_triple (onRoot_keeps _)) fun _ => insertFile_gives rfl

theorem create_gives (n : Fh) (parent : Ino) (name : Name) (flags : OpenFlags) :
    Triple (fun s => s.nextFh = n) (create parent name flags : FuseM υ ℓ Reply)
      (fun reply s => reply.handle? = some n ∧ n < s.nextFh) (fun _ => True) := by
  have hkeep : ∀ {β : Type} {x : FuseM υ ℓ β}, Keeps files x →
      Triple (fun s => s.nextFh = n) x (fun _ s => s.nextFh = n) (fun _ => True) :=
    fun hx => (hx.triple (I := fun t => t.2 = n)).forget
  exact Triple.bind (hkeep pathOf_keeps) fun _ => Triple.bind (hkeep (join_keeps _ _)) fun _ =>
    Triple.bind (hkeep (Keeps.ask _)) fun _ => Triple.bind (hkeep (failIf_keeps _ _)) fun _ =>
      Triple.bind (hkeep (createIn_keeps _)) fun _ => Triple.bind (hkeep internPath_keeps) fun _ =>
        Triple.bind (hkeep (attrNow_keeps _)) fun _ => allocFh_gives n (insertFile_gives rfl)

/-- A reply gives out the next handle, which is none before it nor after. -/
theorem handle_of_respond {r : Request} {reply : Reply} (hok : respond s r = .ok reply)
    (hhandle : reply.handle? = some fh) : fh = s.nextFh ∧ fh < (next s r).nextFh := by
  have hgives : reply.handle? = some s.nextFh ∧ s.nextFh < (next s r).nextFh := by
    by_cases hopening : Opening r
    · cases r with
      | openInode ino flags backed =>
        exact next_of_ok ((openInode_gives s.nextFh ino flags backed).from_state rfl) hok
      | create parent name flags =>
        exact next_of_ok ((create_gives s.nextFh parent name flags).from_state rfl) hok
      | _ => exact hopening.elim
    · have hsilent : Triple (· = s) (step r) (fun reply _ => reply.handle? = none) _ :=
        Triple.from_state (step_silent hopening) True.intro
      have hnone := next_of_ok hsilent hok
      rw [hnone] at hhandle
      cases hhandle
  rw [hhandle] at hgives
  obtain ⟨hfh, hlt⟩ := hgives
  obtain rfl := Option.some.inj hfh
  exact ⟨rfl, hlt⟩

end GivenOut

/-! ### How many handles are given out -/

section HowMany

instance : RootFree (nextFh : Fuse υ ℓ → Fh) := ⟨fun _ _ => rfl⟩
instance : TablesFree (nextFh : Fuse υ ℓ → Fh) := ⟨fun _ _ _ _ => rfl⟩
instance : OpenFree (nextFh : Fuse υ ℓ → Fh) := ⟨fun _ _ => rfl⟩
instance : CacheFree (nextFh : Fuse υ ℓ → Fh) := ⟨fun _ _ _ => rfl⟩

/-- A handler that gives out one handle at most. -/
def GivesOne (x : FuseM υ ℓ α) : Prop :=
  ∀ n, Triple (fun s => s.nextFh = n) x (fun _ s => s.nextFh ≤ n + 1) (fun s => s.nextFh ≤ n + 1)

theorem GivesOne.of_keeps {x : FuseM υ ℓ α} (hx : Keeps nextFh x) : GivesOne x := fun n =>
  (hx n).weaken (fun _ h => h) (fun _ _ h => h ▸ Nat.le_succ n) fun _ h => h ▸ Nat.le_succ n

theorem GivesOne.bind {x : FuseM υ ℓ β} {f : β → FuseM υ ℓ α} (hx : Keeps nextFh x)
    (hf : ∀ a, GivesOne (f a)) : GivesOne (x >>= f) := fun n =>
  Triple.bind ((hx n).weaken (fun _ h => h) (fun _ _ h => h) fun _ h => h ▸ Nat.le_succ n)
    fun a => hf a n

theorem GivesOne.allocFh {f : Fh → FuseM υ ℓ α} (hf : ∀ fh, Keeps nextFh (f fh)) :
    GivesOne (allocFh >>= f) := by
  intro n
  refine Triple.of_forall fun s hs => Triple.bind_run run_allocFh ?_
  subst hs
  refine ((hf s.nextFh (s.nextFh + 1)).weaken ?_ (fun _ _ h => h.le) fun _ h => h.le)
  rintro _ rfl
  rfl

variable [PhysicalFS υ] [PhysicalFS ℓ]

theorem openInode_givesOne (ino : Ino) (flags : OpenFlags) (backed : Bool) :
    GivesOne (openInode ino flags backed : FuseM υ ℓ Reply) := by
  refine GivesOne.bind pathOf_keeps fun path => GivesOne.allocFh fun fh => ?_
  refine Keeps.ite ?_ (Keeps.bind (openBacking_keeps backed) fun backing => ?_)
  · exact Keeps.bind (failIf_keeps _ _) fun _ => Keeps.bind (Keeps.ask _) fun _ =>
      Keeps.bind (insertFile_keeps _) fun _ => Keeps.pure _
  · cases backing with
    | some backing => exact Keeps.bind (insertFile_keeps _) fun _ => Keeps.pure _
    | none =>
      exact Keeps.bind (failIf_keeps _ _) fun _ => Keeps.bind (onRoot_keeps _) fun _ =>
        Keeps.bind (insertFile_keeps _) fun _ => Keeps.pure _

theorem create_givesOne (parent : Ino) (name : Name) (flags : OpenFlags) :
    GivesOne (create parent name flags : FuseM υ ℓ Reply) :=
  GivesOne.bind pathOf_keeps fun _ => GivesOne.bind (join_keeps _ _) fun _ =>
    GivesOne.bind (Keeps.ask _) fun _ => GivesOne.bind (failIf_keeps _ _) fun _ =>
      GivesOne.bind (createIn_keeps _) fun _ => GivesOne.bind internPath_keeps fun _ =>
        GivesOne.bind (attrNow_keeps _) fun _ => GivesOne.allocFh fun _ =>
          Keeps.bind (insertFile_keeps _) fun _ => Keeps.pure _

/-- A request gives out one handle at most. -/
theorem nextFh_next_le (s : Fuse υ ℓ) (r : Request) : (next s r).nextFh ≤ s.nextFh + 1 := by
  suffices hone : GivesOne (step r : FuseM υ ℓ Reply) from (hone s.nextFh).finalState rfl
  cases r with
  | openInode ino flags backed => exact openInode_givesOne ino flags backed
  | create parent name flags => exact create_givesOne parent name flags
  | lookup parent name => exact .of_keeps (lookup_keeps _ _)
  | getattr ino => exact .of_keeps getattr_keeps
  | setattr ino attrs => exact .of_keeps (setattr_keeps _)
  | readdir ino offset capacity => exact .of_keeps (readdir_keeps _ _)
  | mkdir parent name => exact .of_keeps (mkdir_keeps _ _)
  | rmdir parent name => exact .of_keeps (rmdir_keeps _ _)
  | read fh offset size => exact .of_keeps (read_keeps _ _)
  | write fh offset data => exact .of_keeps (write_keeps _ _)
  | release fh => exact .of_keeps release_keeps
  | unlink parent name => exact .of_keeps (unlink_keeps _ _)
  | rename parent name newparent newname => exact .of_keeps (rename_keeps _ _ _ _)
  | readlink ino => exact .of_keeps readlink_keeps
  | symlink parent name link => exact .of_keeps (symlink_keeps _ _ _)
  | setxattr ino applied | removexattr ino applied => exact .of_keeps (changeXattr_keeps _)
  | fsync fh => exact .of_keeps fsync_keeps
  | flush => exact .of_keeps (Keeps.pure _)

theorem nextFh_run_le (s : Fuse υ ℓ) (rs : List Request) :
    (s.run rs).nextFh ≤ s.nextFh + rs.length := by
  induction rs generalizing s with
  | nil => exact Nat.le_refl _
  | cons r rs ih =>
    calc ((next s r).run rs).nextFh ≤ (next s r).nextFh + rs.length := ih (next s r)
      _ ≤ s.nextFh + 1 + rs.length := Nat.add_le_add_right (nextFh_next_le s r) _
      _ = s.nextFh + (rs.length + 1) := by rw [Nat.add_assoc, Nat.add_comm 1]

end HowMany

end Fuse

/-! ### One request -/

namespace Gauged

/-- The daemon with a gauge that is `k` below the number of open files. -/
noncomputable def behind (k : Int) (s : Fuse υ ℓ) : Gauged υ ℓ := ⟨s, s.handles.ncard - k⟩

theorem counts_behind_iff : Counts (behind k s) ↔ k = 0 := by
  change (s.handles.ncard : Int) - k = s.handles.ncard ↔ k = 0
  omega

theorem new_eq_behind (root : LayerFS υ ℓ) (verifiedLayers : List Bool) (frames : Nat) :
    new root verifiedLayers frames = behind 0 (Fuse.new root verifiedLayers frames) := by
  have hnone : (Fuse.new root verifiedLayers frames).handles = ∅ :=
    Set.eq_empty_of_forall_notMem fun _ h => Bool.false_ne_true h
  rw [behind, hnone, Set.ncard_empty]
  rfl

theorem behind_of_handles {s' : Fuse υ ℓ} (h : s'.handles = s.handles) :
    Gauged.mk s' (behind k s).openHandles = behind k s' := by
  unfold behind
  rw [h]

theorem onFuse_follows {y : FuseM υ ℓ α} (hy : Keeps Fuse.handles y) :
    Follows (behind k) Eq (onFuse y) y s := by
  have hfuse : (behind k s).fuse = s := rfl
  unfold Follows onFuse
  rw [run_onPart, hfuse]
  cases hrun : y.run s with
  | ok a s' =>
    have hsame := (hy s.handles).ok rfl hrun
    exact ⟨a, congrArg (EStateM.Result.ok a) (behind_of_handles hsame), rfl⟩
  | error e s' =>
    have hsame := (hy s.handles).error rfl hrun
    exact congrArg (EStateM.Result.error e) (behind_of_handles hsame)

/-- Going on after what does not touch the gauge, with the handles that were open. -/
theorem onFuse_bind {y : FuseM υ ℓ α} {f : α → GaugedM υ ℓ β} {f' : α → FuseM υ ℓ β}
    (hy : Keeps Fuse.handles y)
    (hf : ∀ a s', y.run s = .ok a s' → s'.handles = s.handles →
      Follows (behind k) Eq (f a) (f' a) s') :
    Follows (behind k) Eq (onFuse y >>= f) (y >>= f') s := by
  refine Follows.bind (onFuse_follows hy) ?_
  intro a b s' hrun hab
  subst hab
  exact hf a s' hrun ((hy s.handles).ok rfl hrun)

/-- An insertion at a handle that is not open keeps the gauge where it is. -/
theorem insertFile_follows (hfin : s.handles.Finite) (hnew : fh ∉ s.handles) (file : OpenFile) :
    Follows (behind k) Eq (insertFile fh file) (Fuse.insertFile fh file) s := by
  -- the handle is a new key, so that the table grows by what was counted
  have hone : ((insert fh s.handles).ncard : Int) - k = s.handles.ncard - k + 1 := by
    rw [Set.ncard_insert_of_notMem hnew hfin]
    omega
  have hnext : (behind k { s with
      openFiles := Function.update s.openFiles fh (some file) }).openHandles =
      (behind k s).openHandles + 1 := by
    rw [behind, Fuse.handles_insert]
    exact hone
  exact ⟨(), congrArg (EStateM.Result.ok ()) (congrArg (Gauged.mk _) hnext.symm), rfl⟩

/-- Going on after what does not touch the open files. -/
theorem issued_bind {y : FuseM υ ℓ α} {f : α → GaugedM υ ℓ β} {f' : α → FuseM υ ℓ β}
    (h : Fuse.Issued s) (hy : Keeps Fuse.files y)
    (hf : ∀ a s', Fuse.Issued s' → Follows (behind k) Eq (f a) (f' a) s') :
    Follows (behind k) Eq (onFuse y >>= f) (y >>= f') s := by
  have hkeys : Keeps Fuse.handles y := fun b =>
    hy.triple (I := fun t : (Fh → Option OpenFile) × Fh => { fh | (t.1 fh).isSome } = b)
  refine onFuse_bind hkeys fun a s' hrun _ => hf a s' ?_
  have hissued := hy.triple (I := fun t => ∀ fh, (t.1 fh).isSome → fh < t.2)
  exact hissued.ok h hrun

/-- The handle that is given out was never given out before, and so is not open. -/
theorem allocFh_bind {f : Fh → GaugedM υ ℓ β} {f' : Fh → FuseM υ ℓ β} (h : Fuse.Issued s)
    (hf : ∀ (fh : Fh) (s' : Fuse υ ℓ), s'.handles.Finite → fh ∉ s'.handles →
      Follows (behind k) Eq (f fh) (f' fh) s') :
    Follows (behind k) Eq (onFuse Fuse.allocFh >>= f) (Fuse.allocFh >>= f') s := by
  refine onFuse_bind ?_ fun new s' hrun _ => ?_
  · rintro b s rfl
    rfl
  · rw [Fuse.run_allocFh] at hrun
    cases hrun
    exact hf _ _ h.finite h.next_notMem

variable [PhysicalFS υ] [PhysicalFS ℓ]

theorem openBuffered_follows (hfin : s.handles.Finite) (hnew : fh ∉ s.handles) (path : Path)
    (flags : OpenFlags) :
    Follows (behind k) Eq (openBuffered path flags fh) (Fuse.openBuffered path flags fh) s := by
  refine onFuse_bind (Fuse.failIf_keeps _ _) fun _ s₁ _ h₁ => ?_
  refine onFuse_bind (Keeps.ask _) fun data s₂ _ h₂ => ?_
  have hsame := h₂.trans h₁
  refine Follows.bind (insertFile_follows (hsame ▸ hfin) (hsame ▸ hnew) _) ?_
  exact fun _ _ _ _ _ => Follows.pure rfl

theorem openReadOnly_follows (hfin : s.handles.Finite) (hnew : fh ∉ s.handles) (ino : Ino)
    (path : Path) (backed : Bool) :
    Follows (behind k) Eq (openReadOnly ino path backed fh) (Fuse.openReadOnly ino path backed fh)
      s := by
  refine onFuse_bind (Fuse.openBacking_keeps backed) fun backing s₁ _ h₁ => ?_
  cases backing with
  | some backing =>
    refine Follows.bind (insertFile_follows (h₁ ▸ hfin) (h₁ ▸ hnew) _) ?_
    exact fun _ _ _ _ _ => Follows.pure rfl
  | none =>
    refine onFuse_bind (Fuse.failIf_keeps _ _) fun _ s₂ _ h₂ => ?_
    refine onFuse_bind (Fuse.onRoot_keeps _) fun reader s₃ _ h₃ => ?_
    have hsame := h₃.trans (h₂.trans h₁)
    refine Follows.bind (insertFile_follows (hsame ▸ hfin) (hsame ▸ hnew) _) ?_
    exact fun _ _ _ _ _ => Follows.pure rfl

theorem openInode_follows (h : Fuse.Issued s) (ino : Ino) (flags : OpenFlags) (backed : Bool) :
    Follows (behind k) Eq (openInode ino flags backed) (Fuse.openInode ino flags backed) s := by
  refine issued_bind h Fuse.pathOf_keeps fun path s₁ h₁ => ?_
  refine allocFh_bind h₁ fun fh s₂ hfin hnew => ?_
  exact Follows.ite (fun _ => openBuffered_follows hfin hnew path flags)
    fun _ => openReadOnly_follows hfin hnew ino path backed

theorem create_follows (h : Fuse.Issued s) (parent : Ino) (name : Name) (flags : OpenFlags) :
    Follows (behind k) Eq (create parent name flags) (Fuse.create parent name flags) s := by
  refine issued_bind h Fuse.pathOf_keeps fun parentPath s₁ h₁ => ?_
  refine issued_bind h₁ (Fuse.join_keeps _ _) fun path s₂ h₂ => ?_
  refine issued_bind h₂ (Keeps.ask _) fun there s₃ h₃ => ?_
  refine issued_bind h₃ (Fuse.failIf_keeps _ _) fun _ s₄ h₄ => ?_
  refine issued_bind h₄ (Fuse.createIn_keeps _) fun _ s₅ h₅ => ?_
  refine issued_bind h₅ Fuse.internPath_keeps fun ino s₆ h₆ => ?_
  refine issued_bind h₆ (Fuse.attrNow_keeps _) fun attr s₇ h₇ => ?_
  refine allocFh_bind h₇ fun fh s₈ hfin hnew => ?_
  exact Follows.bind (insertFile_follows hfin hnew _) fun _ _ _ _ _ => Follows.pure rfl

/-- What follows the daemon's handler does the same to the state and answers the same. -/
theorem same_of_follows {x : GaugedM υ ℓ Reply} {r : Request}
    (hstep : step r = x) (h : Follows (behind k) Eq x (Fuse.step r) s) :
    next (behind k s) r = behind k (s.next r) ∧ respond (behind k s) r = s.respond r := by
  refine ⟨(congrArg (finalState · (behind k s)) hstep).trans h.finalState, ?_⟩
  unfold Follows at h
  unfold respond Fuse.respond
  rw [hstep]
  cases hrun : (Fuse.step r).run s with
  | ok reply s' =>
    rw [hrun] at h
    obtain ⟨reply', hreply, rfl⟩ := h
    rw [hreply]
  | error e s' =>
    rw [hrun] at h
    dsimp only at h
    rw [h]

/-- How far a request drops the gauge below the number of open files. -/
def missedBy (g : Gauged υ ℓ) : Request → Nat
  | .release fh => if (g.fuse.openFiles fh).isSome then 0 else 1
  | _ => 0

theorem release_counts_down (g : Gauged υ ℓ) (fh : Fh) :
    next g (.release fh) = ⟨g.fuse.next (.release fh), g.openHandles - 1⟩ ∧
      respond g (.release fh) = g.fuse.respond (.release fh) := by
  have hrun : (step (.release fh)).run g =
      (onFuse (Fuse.step (.release fh))).run ⟨g.fuse, g.openHandles - 1⟩ := rfl
  unfold next respond Fuse.next Fuse.respond finalState
  rw [hrun, onFuse, run_onPart]
  dsimp only
  cases (Fuse.step (.release fh)).run g.fuse with
  | ok reply s' => exact ⟨rfl, rfl⟩
  | error e s' => exact ⟨rfl, rfl⟩

/-- A release takes one off the gauge, and one off the open files if it finds its handle. -/
theorem next_release (hfin : s.handles.Finite) (fh : Fh) :
    next (behind k s) (.release fh) =
      behind (k + missedBy (behind k s) (.release fh)) (s.next (.release fh)) := by
  rw [(release_counts_down (behind k s) fh).1]
  refine congrArg (Gauged.mk _) ?_
  change (s.handles.ncard : Int) - k - 1 = _
  by_cases hopen : fh ∈ s.handles
  · -- the file is taken out even if its write-back then fails
    have hleft : (s.next (.release fh)).handles = s.handles \ {fh} := Fuse.release_handles hopen
    have hone := Set.ncard_sdiff_singleton_add_one hopen hfin
    have hfound : missedBy (behind k s) (.release fh) = 0 := if_pos hopen
    rw [hleft, hfound]
    omega
  · -- the request is answered with an error and changes nothing but the gauge
    have hsame : s.next (.release fh) = s := by
      unfold Fuse.next finalState Fuse.step
      rw [Fuse.run_release_unknown hopen]
    have hmissed : missedBy (behind k s) (.release fh) = 1 := if_neg hopen
    rw [hsame, hmissed]
    omega

/-- How far one request moves the gauge from the number of open files, and that it answers as
without a gauge. -/
theorem step_counted (h : Fuse.Issued s) (r : Request) :
    next (behind k s) r = behind (k + missedBy (behind k s) r) (s.next r) ∧
      respond (behind k s) r = s.respond r := by
  by_cases hrelease : ∃ fh, r = .release fh
  · obtain ⟨fh, rfl⟩ := hrelease
    exact ⟨next_release h.finite fh, (release_counts_down (behind k s) fh).2⟩
  · -- the other handlers count what they insert, and miss nothing
    have hnone : missedBy (behind k s) r = 0 := by
      cases r with
      | release fh => exact absurd ⟨fh, rfl⟩ hrelease
      | _ => rfl
    rw [hnone, Nat.cast_zero, add_zero]
    cases r with
    | openInode ino flags backed =>
      exact same_of_follows (r := .openInode ino flags backed) rfl
        (openInode_follows h ino flags backed)
    | create parent name flags =>
      exact same_of_follows (r := .create parent name flags) rfl
        (create_follows h parent name flags)
    | release fh => exact absurd ⟨fh, rfl⟩ hrelease
    | _ => exact same_of_follows rfl (onFuse_follows (Fuse.step_handles trivial))

/-! ### Runs -/

/-- How many requests of a run release a handle that is not open. -/
def missed : Gauged υ ℓ → List Request → Nat
  | _, [] => 0
  | g, r :: rs => missedBy g r + missed (next g r) rs

/-- The gauge after a run. -/
theorem run_counted (h : Fuse.Issued s) (rs : List Request) :
    run (behind k s) rs = behind (k + missed (behind k s) rs) (s.run rs) := by
  induction rs generalizing s k with
  | nil =>
    change behind k s = behind (k + ((0 : Nat) : Int)) s
    rw [Nat.cast_zero, add_zero]
  | cons r rs ih =>
    have hnext := (step_counted (k := k) h r).1
    change run (next (behind k s) r) rs =
      behind (k + ((missedBy (behind k s) r + missed (next (behind k s) r) rs : Nat) : Int))
        ((s.next r).run rs)
    rw [hnext, ih (h.step r), Nat.cast_add, add_assoc]

/-- The handles replied in a run, in order. -/
def replied : Gauged υ ℓ → List Request → List Fh
  | _, [] => []
  | g, r :: rs => ((respond g r).toOption.bind Reply.handle?).toList ++ replied (next g r) rs

/-- The handles replied in a run were not given out before it, and no two are the same. -/
theorem replied_fresh (h : Fuse.Issued s) (rs : List Request) :
    (∀ fh ∈ replied (behind k s) rs, s.nextFh ≤ fh) ∧ (replied (behind k s) rs).Nodup := by
  induction rs generalizing s k with
  | nil => exact ⟨nofun, List.nodup_nil⟩
  | cons r rs ih =>
    obtain ⟨hnext, hrespond⟩ := step_counted (k := k) h r
    obtain ⟨hlater, hnodup⟩ := ih (k := k + missedBy (behind k s) r) (h.step r)
    rw [replied, hnext, hrespond]
    have hmono := Fuse.nextFh_mono s r
    cases hreply : (s.respond r).toOption.bind Reply.handle? with
    | none =>
      exact ⟨fun fh hmem => hmono.trans (hlater fh hmem), hnodup⟩
    | some new =>
      obtain ⟨reply, hok, hhandle⟩ := Option.bind_eq_some_iff.mp hreply
      have hresult : s.respond r = .ok reply := by
        cases hr : s.respond r with
        | error e =>
          rw [hr] at hok
          cases hok
        | ok reply' =>
          rw [hr] at hok
          exact congrArg Except.ok (Option.some.inj hok)
      obtain ⟨hnew, hbefore⟩ := Fuse.handle_of_respond hresult hhandle
      constructor
      · intro fh hmem
        rcases List.mem_cons.mp hmem with rfl | hmem
        · exact hnew.ge
        · exact hmono.trans (hlater fh hmem)
      · -- the handles to come are those from the next one on, which is behind `new`
        refine List.nodup_cons.mpr ⟨fun hmem => ?_, hnodup⟩
        exact Nat.lt_irrefl _ (hbefore.trans_le (hlater new hmem))

theorem missed_eq_zero_iff (g : Gauged υ ℓ) (rs : List Request) :
    missed g rs = 0 ↔ EachStep next ReleasesOpen g rs := by
  induction rs generalizing g with
  | nil => exact iff_of_true rfl True.intro
  | cons r rs ih =>
    rw [missed, Nat.add_eq_zero_iff, ih]
    refine and_congr_left fun _ => ?_
    cases r with
    | release fh =>
      by_cases hopen : (g.fuse.openFiles fh).isSome
      · exact iff_of_true (if_pos hopen) hopen
      · refine iff_of_false ?_ hopen
        rw [missedBy, if_neg hopen]
        exact Nat.one_ne_zero
    | _ => exact iff_of_true rfl True.intro

variable (root : LayerFS υ ℓ) (verifiedLayers : List Bool) (frames : Nat)

theorem issued_new : Fuse.Issued (Fuse.new root verifiedLayers frames) :=
  Fuse.issued_run root verifiedLayers frames []

/-- A run from the start leaves the gauge at the number of open files if no release in it misses. -/
theorem counts_run_iff (rs : List Request) :
    Counts (run (new root verifiedLayers frames) rs) ↔
      EachStep next ReleasesOpen (new root verifiedLayers frames) rs := by
  rw [← missed_eq_zero_iff, new_eq_behind, run_counted (issued_new root verifiedLayers frames),
    counts_behind_iff, zero_add]
  exact Nat.cast_eq_zero

/-- No handle is replied twice. -/
theorem replied_nodup (rs : List Request) :
    (replied (new root verifiedLayers frames) rs).Nodup := by
  rw [new_eq_behind]
  exact (replied_fresh (issued_new root verifiedLayers frames) rs).2

theorem missed_le (g : Gauged υ ℓ) (rs : List Request) : missed g rs ≤ rs.length := by
  induction rs generalizing g with
  | nil => exact Nat.le_refl 0
  | cons r rs ih =>
    have hone : missedBy g r ≤ 1 := by
      unfold missedBy
      split
      · split
        · exact Nat.zero_le 1
        · exact Nat.le_refl 1
      · exact Nat.zero_le 1
    calc missedBy g r + missed (next g r) rs ≤ 1 + rs.length := Nat.add_le_add hone (ih _)
      _ = rs.length + 1 := Nat.add_comm 1 _

/-- In a run of fewer than `2 ^ 63 - 1` requests the gauge fits into an `AtomicI64`, and the next
handle into an `AtomicU64`. -/
theorem words_suffice (rs : List Request) (hshort : rs.length + 1 < 2 ^ 63) :
    (Int64.ofInt (run (new root verifiedLayers frames) rs).openHandles).toInt =
        (run (new root verifiedLayers frames) rs).openHandles ∧
      (UInt64.ofNat (run (new root verifiedLayers frames) rs).fuse.nextFh).toNat =
        (run (new root verifiedLayers frames) rs).fuse.nextFh := by
  have hissued := Fuse.issued_run root verifiedLayers frames rs
  have hnext : ((Fuse.new root verifiedLayers frames).run rs).nextFh ≤ 1 + rs.length :=
    Fuse.nextFh_run_le _ rs
  have hopen := hissued.ncard_le.trans hnext
  have hmissed := missed_le (new root verifiedLayers frames) rs
  rw [new_eq_behind] at hmissed ⊢
  rw [run_counted (issued_new root verifiedLayers frames), zero_add]
  generalize missed (behind 0 (Fuse.new root verifiedLayers frames)) rs = k at hmissed ⊢
  constructor
  · rw [Int64.toInt_ofInt]
    refine Int.bmod_eq_of_le ?_ ?_ <;> simp only [behind, Int64.size] <;> omega
  · refine UInt64.toNat_ofNat_of_lt' (Nat.lt_of_le_of_lt hnext ?_)
    rw [UInt64.size]
    omega

/-- In every state of a run the gauge is the number of open files, and no handle is replied twice,
exactly in the runs whose releases all name a handle that is open. -/
theorem counts_iff (rs : List Request) :
    ((∀ done, done <+: rs → Counts (run (new root verifiedLayers frames) done)) ∧
        (replied (new root verifiedLayers frames) rs).Nodup) ↔
      EachStep next ReleasesOpen (new root verifiedLayers frames) rs := by
  constructor
  · exact fun h => (counts_run_iff root verifiedLayers frames rs).mp (h.1 rs (List.prefix_refl rs))
  · intro hall
    refine ⟨?_, replied_nodup root verifiedLayers frames rs⟩
    intro done hdone
    obtain ⟨rest, rfl⟩ := hdone
    -- what holds all along the run holds all along its beginning
    have hbegin := (eachStep_append.mp hall).1
    exact (counts_run_iff root verifiedLayers frames done).mpr hbegin

/-- A release of handle 7 as the first request: the gauge is negative. -/
theorem not_counts_releaseFirst :
    ¬ Counts (run (new (⟨Tree.empty, []⟩ : LayerFS Tree Tree) [] 0) [.release 7]) := by
  rw [counts_run_iff]
  intro hall
  exact Bool.false_ne_true hall.1

end Gauged

end Rspacefs
