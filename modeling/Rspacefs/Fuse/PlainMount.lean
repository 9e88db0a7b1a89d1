import Mathlib.Data.Set.Insert
import Mathlib.Tactic.Simps.Basic
import Rspacefs.Core.Plain
import Rspacefs.Fuse.Daemon
import Rspacefs.Lib.Cursor
import Rspacefs.Lib.Interning

/-!
# A plain filesystem behind requests

What the daemon is for: a client that mounts it sees a plain filesystem. Here is that filesystem
with the two tables that every server of such requests has, the inode numbers and the open files.
A name leads to a file, and so does a handle; what is written through a handle is in the file at
once, under every name and every other handle, and a file without a name lives on behind its
handles.

The daemon keeps what is written in the handle until it is flushed. A client can tell the two apart
only if it looks at a file behind the back of the handle that writes to it. `Orderly` says that it
does not, request by request; what the daemon does on purpose and a plain filesystem does not
(a rename onto something, a size other than zero) is left out there too.

## Main definitions

* `PlainMount` — the tree, the files, the inode numbers and the open files
* `PlainMount.Step` — a request, its reply, and what it leaves
* `PlainMount.Orderly` — a file is written by one handle at a time, and looked at when it is synced

## Main results

* `cameFrom_inj` — a rename takes every entry to one place
-/

namespace Rspacefs

open Lib

/-! ### Paths and a rename -/

section Paths

variable {s p q q' r : Path}

/-- Where that what is at `q` behind a rename of `s` to `p` was before. -/
def cameFrom (s p q : Path) : Option Path :=
  if p <+: q then some (s ++ q.drop p.length) else if s <+: q then none else some q

/-- Where that what is at `q` goes in a rename of `s` to `p`. -/
def goesTo (s p q : Path) : Option Path :=
  if s <+: q then some (p ++ q.drop s.length) else if p <+: q then none else some q

@[simp] theorem cameFrom_below : cameFrom s p (p ++ r) = some (s ++ r) := by
  rw [cameFrom, if_pos (List.prefix_append p r), List.drop_left]

theorem cameFrom_of_apart (hp : ¬ p <+: q) (hs : ¬ s <+: q) : cameFrom s p q = some q := by
  rw [cameFrom, if_neg hp, if_neg hs]

theorem cameFrom_inj {a : Path} (hq : cameFrom s p q = some a) (hq' : cameFrom s p q' = some a) :
    q = q' := by
  -- what came from below `s` is below `p` now, and everything else stayed where it was
  unfold cameFrom at hq hq'
  split at hq
  · rename_i hpq
    obtain ⟨r, rfl⟩ := hpq
    rw [List.drop_left, Option.some.injEq] at hq
    split at hq'
    · rename_i hpq'
      obtain ⟨r', rfl⟩ := hpq'
      rw [List.drop_left, Option.some.injEq, ← hq] at hq'
      rw [List.append_cancel_left hq']
    · split at hq'
      · cases hq'
      · rename_i hs
        exact absurd ((List.prefix_append s r).trans ((hq.trans
          (Option.some.inj hq').symm) ▸ List.prefix_refl _)) hs
  · split at hq
    · cases hq
    · rename_i hs
      obtain rfl := Option.some.inj hq
      split at hq'
      · rename_i hpq'
        obtain ⟨r', rfl⟩ := hpq'
        rw [List.drop_left, Option.some.injEq] at hq'
        exact absurd (hq' ▸ List.prefix_append s r') hs
      · split at hq'
        · cases hq'
        · exact (Option.some.inj hq').symm

end Paths

/-! ### The numbers of paths -/

namespace Lib.Interned

variable (t : Interned Path)

/-- The number a path has, or is given when it is numbered. -/
def numberOf (p : Path) : Ino := (t.number p).getD t.next

/-- The entries of a directory are numbered one after the other. -/
def internAll (d : Path) (ns : List Name) : Interned Path :=
  ns.foldl (fun t n => t.intern (d ++ [n])) t

/-- The entries of a directory with their numbers and kinds. -/
def children (kind : Path → FileKind) (t : Interned Path) (d : Path) :
    List Name → List (Ino × FileKind × Name)
  | [] => []
  | n :: ns => (t.numberOf (d ++ [n]), kind (d ++ [n]), n) ::
      children kind (t.intern (d ++ [n])) d ns

/-- The entries of a directory behind the dots, each with the cookie of the next one. -/
def listing (kind : Path → FileKind) (ino : Ino) (d : Path) (ns : List Name) : List DirEntry :=
  let parentIno := if ino = Fuse.rootIno then Fuse.rootIno
    else (t.number d.dropLast).getD Fuse.rootIno
  ((ino, .directory, ".".toList) :: (parentIno, .directory, "..".toList) ::
    children kind t d ns).mapIdx fun i (ino, kind, name) => ⟨ino, i + 1, kind, name⟩

/-- The numbers move with the entries. -/
def renamed (s p : Path) : Interned Path where
  key i := (t.key i).bind (goesTo s p)
  number q := (cameFrom s p q).bind t.number
  next := t.next

/-- The path of a name in the directory that an inode number stands for. -/
structure Child (parent : Ino) (name : Name) (p : Path) : Prop where
  valid : ValidName name
  path : ∃ d, t.key parent = some d ∧ p = d ++ [name]

end Lib.Interned

/-- The attributes of an entry. -/
def Node.attr (ino : Ino) (node : Node) : FileAttr := ⟨ino, node.len, Tree.kind node⟩

/-- What a listing shows of an entry. -/
def Plain.kind (F : Plain) (p : Path) : FileKind := ((F p).map Tree.kind).getD .regularFile

/-- The content of a file that is opened. -/
def OpenFlags.openedContent (flags : OpenFlags) (c : Bytes) : Bytes := if flags.trunc then [] else c

/-- A request on the bytes of a handle. -/
inductive Request.Uses (fh : Fh) : Request → Prop
  | read (offset size : Nat) : Uses fh (.read fh offset size)
  | write (offset : Nat) (data : Bytes) : Uses fh (.write fh offset data)
  | fsync : Uses fh (.fsync fh)
  | release : Uses fh (.release fh)

/-- A request on an inode number, or on a name in it. -/
inductive Request.On (ino : Ino) : Request → Prop
  | lookup (name : Name) : On ino (.lookup ino name)
  | getattr : On ino (.getattr ino)
  | setattr (attrs : SetAttr) : On ino (.setattr ino attrs)
  | readdir (offset capacity : Nat) : On ino (.readdir ino offset capacity)
  | mkdir (name : Name) : On ino (.mkdir ino name)
  | rmdir (name : Name) : On ino (.rmdir ino name)
  | openInode (flags : OpenFlags) (backed : Bool) : On ino (.openInode ino flags backed)
  | create (name : Name) (flags : OpenFlags) : On ino (.create ino name flags)
  | unlink (name : Name) : On ino (.unlink ino name)

/-! ### The filesystem -/

/-- What tells files apart: the path in the image, or the handle that a file was created with. -/
inductive FileId
  | image (p : Path)
  | made (fh : Fh)
  deriving DecidableEq

/-- What a name leads to. -/
inductive Entry
  | dir
  | file (id : FileId)
  deriving DecidableEq

/-- A plain filesystem with its tables. -/
structure PlainMount where
  tree : Path → Option Entry
  content : FileId → Bytes
  names : Interned Path
  nextFh : Fh
  /-- The file behind a handle, and whether it can be written. -/
  handles : Fh → Option (FileId × Bool)
  /-- The files written to since a handle on them was last synced or released. No reply depends on
  them. -/
  unsynced : Set FileId

namespace PlainMount

/-- A tree that was just mounted: the root has its number, and nothing is open. -/
def fresh (F : Plain) : PlainMount where
  tree p := (F p).map fun
    | .dir => .dir
    | .file _ => .file (.image p)
  content
    | .image p => match F p with
      | some (.file c) => c
      | _ => []
    | .made _ => []
  names :=
    { key := Function.update (fun _ => none) Fuse.rootIno (some [])
      number := Function.update (fun _ => none) [] (some Fuse.rootIno)
      next := Fuse.rootIno + 1 }
  nextFh := 1
  handles _ := none
  unsynced := ∅

variable (m : PlainMount)

/-- What an entry looks like. -/
def node : Entry → Node
  | .dir => .dir
  | .file id => .file (m.content id)

/-- What a client sees. -/
def view : Plain := fun p => (m.tree p).map m.node

@[simps]
def numbered (p : Path) : PlainMount := { m with names := m.names.intern p }

def opened (id : FileId) (writable : Bool) : PlainMount :=
  { m with
    nextFh := m.nextFh + 1
    handles := Function.update m.handles m.nextFh (some (id, writable)) }

@[simps]
def store (id : FileId) (c : Bytes) : PlainMount :=
  { m with content := Function.update m.content id c }

@[simps]
def put (p : Path) (e : Entry) : PlainMount :=
  { m with tree := Function.update m.tree p (some e) }

/-- A name goes, and its number with it. -/
@[simps]
def drop (p : Path) : PlainMount :=
  { m with tree := Function.update m.tree p none, names := m.names.unbind p }

@[simps]
def wrote (id : FileId) : PlainMount := { m with unsynced := insert id m.unsynced }

@[simps]
def synced (id : FileId) : PlainMount := { m with unsynced := m.unsynced \ {id} }

@[simps]
def closed (fh : Fh) : PlainMount := { m with handles := Function.update m.handles fh none }

/-- Everything at and below `s` goes to `p`. -/
def renamed (s p : Path) : PlainMount :=
  { m with tree := fun q => (cameFrom s p q).bind m.tree, names := m.names.renamed s p }

/-- The content of a file that is given a size: cut off, or filled with zeros. -/
def resized (c : Bytes) (size : Nat) : Bytes := c.take size ++ List.replicate (size - c.length) 0

/-- What may be renamed onto what. -/
inductive Replaces (s p : Path) : Prop
  | free (hfree : m.tree p = none)
  | file {id id' : FileId} (hs : m.tree s = some (.file id)) (hp : m.tree p = some (.file id'))
  | dir (hs : m.tree s = some .dir) (hp : m.tree p = some .dir)
      (hempty : ∀ n, m.tree (p ++ [n]) = none)

/-- A request that a plain filesystem serves, its reply, and the filesystem behind it. -/
inductive Step (m : PlainMount) : Request → Except Errno Reply → PlainMount → Prop
  | lookup {parent : Ino} {name : Name} {p : Path} {node : Node} (hp : m.names.Child parent name p)
      (hnode : m.view p = some node) :
      Step m (.lookup parent name) (.ok (.entry (node.attr (m.names.numberOf p)))) (m.numbered p)
  | lookupMissing {parent : Ino} {name : Name} {p : Path} (hp : m.names.Child parent name p)
      (hnone : m.tree p = none) : Step m (.lookup parent name) (.error .enoent) m
  | getattr {ino : Ino} {p : Path} {node : Node} (hp : m.names.key ino = some p)
      (hnode : m.view p = some node) : Step m (.getattr ino) (.ok (.attr (node.attr ino))) m
  | resize {ino : Ino} {p : Path} {id : FileId} {size : Nat} {applied : Except Errno Unit}
      (hp : m.names.key ino = some p) (hfile : m.tree p = some (.file id)) :
      Step m (.setattr ino ⟨some size, false, applied⟩)
        (.ok (.attr (Node.attr ino (.file (resized (m.content id) size)))))
        (m.store id (resized (m.content id) size))
  | readdir {ino : Ino} {d : Path} {ns : List Name} {offset capacity : Nat}
      (hd : m.names.key ino = some d) (hdir : m.tree d = some .dir)
      (hsorted : ns.Pairwise (· < ·)) (hall : ∀ n, n ∈ ns ↔ m.tree (d ++ [n]) ≠ none) :
      Step m (.readdir ino offset capacity)
        (.ok (.directory (((m.names.listing m.view.kind ino d ns).drop offset).take capacity)))
        { m with names := m.names.internAll d ns }
  | mkdir {parent : Ino} {name : Name} {p : Path} (hp : m.names.Child parent name p)
      (hparent : m.tree p.dropLast = some .dir) (hfree : m.tree p = none) :
      Step m (.mkdir parent name) (.ok (.entry (Node.attr (m.names.numberOf p) .dir)))
        ((m.put p .dir).numbered p)
  | mkdirThere {parent : Ino} {name : Name} {p : Path} (hp : m.names.Child parent name p)
      (hthere : m.tree p ≠ none) : Step m (.mkdir parent name) (.error .eexist) m
  | rmdir {parent : Ino} {name : Name} {p : Path} (hp : m.names.Child parent name p)
      (hdir : m.tree p = some .dir) (hempty : ∀ n, m.tree (p ++ [n]) = none) :
      Step m (.rmdir parent name) (.ok .ok) (m.drop p)
  | rmdirFull {parent : Ino} {name n : Name} {p : Path} (hp : m.names.Child parent name p)
      (hdir : m.tree p = some .dir) (hfull : m.tree (p ++ [n]) ≠ none) :
      Step m (.rmdir parent name) (.error .enotempty) m
  | openInode {ino : Ino} {p : Path} {id : FileId} {flags : OpenFlags} {backed : Bool}
      (hp : m.names.key ino = some p) (hfile : m.tree p = some (.file id)) :
      Step m (.openInode ino flags backed) (.ok (.opened m.nextFh))
        ((m.store id (flags.openedContent (m.content id))).opened id flags.writable)
  | read {fh : Fh} {id : FileId} {writable : Bool} {offset size : Nat}
      (hfile : m.handles fh = some (id, writable)) :
      Step m (.read fh offset size) (.ok (.data (slice (m.content id) offset size))) m
  | write {fh : Fh} {id : FileId} {offset : Nat} {data : Bytes}
      (hfile : m.handles fh = some (id, true)) :
      Step m (.write fh offset data) (.ok (.written data.length))
        ((m.store id (splice (m.content id) offset data)).wrote id)
  | fsync {fh : Fh} {id : FileId} {writable : Bool} (hfile : m.handles fh = some (id, writable)) :
      Step m (.fsync fh) (.ok .ok) (m.synced id)
  | release {fh : Fh} {id : FileId} {writable : Bool} (hfile : m.handles fh = some (id, writable)) :
      Step m (.release fh) (.ok .ok) ((m.synced id).closed fh)
  | noHandle {fh : Fh} {r : Request} (hr : r.Uses fh) (hnone : m.handles fh = none) :
      Step m r (.error .ebadf) m
  | create {parent : Ino} {name : Name} {p : Path} {flags : OpenFlags}
      (hp : m.names.Child parent name p) (hparent : m.tree p.dropLast = some .dir)
      (hfree : m.tree p = none) :
      Step m (.create parent name flags)
        (.ok (.created (Node.attr (m.names.numberOf p) (.file [])) m.nextFh))
        ((((m.store (.made m.nextFh) []).put p (.file (.made m.nextFh))).numbered p).opened
          (.made m.nextFh) true)
  | createThere {parent : Ino} {name : Name} {p : Path} {id : FileId} {flags : OpenFlags}
      (hp : m.names.Child parent name p) (hfile : m.tree p = some (.file id))
      (hexcl : flags.excl = false) :
      Step m (.create parent name flags)
        (.ok (.created (Node.attr (m.names.numberOf p) (.file (flags.openedContent (m.content id))))
          m.nextFh))
        (((m.store id (flags.openedContent (m.content id))).numbered p).opened id true)
  | createRefused {parent : Ino} {name : Name} {p : Path} {flags : OpenFlags}
      (hp : m.names.Child parent name p) (hthere : m.tree p ≠ none) (hexcl : flags.excl = true) :
      Step m (.create parent name flags) (.error .eexist) m
  | unlink {parent : Ino} {name : Name} {p : Path} {id : FileId} (hp : m.names.Child parent name p)
      (hfile : m.tree p = some (.file id)) :
      Step m (.unlink parent name) (.ok .ok) (m.drop p)
  | unlinkMissing {parent : Ino} {name : Name} {p : Path} (hp : m.names.Child parent name p)
      (hnone : m.tree p = none) : Step m (.unlink parent name) (.error .enoent) m
  | rename {parent newparent : Ino} {name newname : Name} {s p : Path}
      (hs : m.names.Child parent name s) (hp : m.names.Child newparent newname p)
      (hsource : m.tree s ≠ none) (hparent : m.tree p.dropLast = some .dir)
      (hreplaces : m.Replaces s p) (hapart : ¬ s <+: p) :
      Step m (.rename parent name newparent newname) (.ok .ok) (m.renamed s p)
  | forgotten {ino : Ino} {r : Request} (hr : r.On ino) (hnone : m.names.key ino = none) :
      Step m r (.error .enoent) m
  | flush : Step m .flush (.ok .ok) m

/-! ### Looking at files that are synced -/

/-- Nothing is written to the file at `p` that was not synced. -/
def Synced (p : Path) : Prop := ∀ id, m.tree p = some (.file id) → id ∉ m.unsynced

/-- The file at `p` is not open. -/
def Unopened (p : Path) : Prop :=
  ∀ id, m.tree p = some (.file id) → ∀ fh writable, m.handles fh ≠ some (id, writable)

/-- No file at or below `p` is open for writing. -/
def Unwritten (p : Path) : Prop :=
  ∀ q, p <+: q → ∀ id, m.tree q = some (.file id) → ∀ fh, m.handles fh ≠ some (id, true)

/-- The file at `p` is empty. -/
def Empty (p : Path) : Prop := ∀ id, m.tree p = some (.file id) → m.content id = []

/-- A client that writes to a file is alone with it until it has synced it, and truncates a file
while it is closed. -/
def Orderly : Request → Prop
  | .lookup parent name => ∀ p, m.names.Child parent name p → m.Synced p
  | .getattr ino => ∀ p, m.names.key ino = some p → m.Synced p
  | .setattr ino attrs => attrs.size = some 0 ∧ ∀ p, m.names.key ino = some p → m.Unopened p
  | .openInode ino flags _ => ∀ p, m.names.key ino = some p →
    m.Synced p ∧ (flags.trunc = true → m.Empty p)
  | .write fh _ _ => ∀ id writable, m.handles fh = some (id, writable) →
    ∀ fh' writable', m.handles fh' = some (id, writable') → fh' = fh
  | .create parent name flags => flags.excl = true ∨ ∀ p, m.names.Child parent name p →
    if flags.trunc then m.Unopened p else m.Synced p ∧ m.Empty p
  | .unlink parent name => ∀ p, m.names.Child parent name p → m.Unwritten p
  | .rename parent name newparent newname => (∀ s, m.names.Child parent name s → m.Unwritten s) ∧
    ∀ p, m.names.Child newparent newname p → m.tree p = none
  | _ => True

end PlainMount

end Rspacefs
