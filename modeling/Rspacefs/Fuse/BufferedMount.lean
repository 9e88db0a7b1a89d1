import Rspacefs.Fuse.PlainMount

/-!
# A plain tree behind write buffers

Between the daemon and a plain filesystem: the tree is a plain one, and the open files are the
daemon's. A handle that can write has the path it was opened at and bytes of its own, which go to
the tree when they are flushed; one that can only read has the bytes that were there.

## Main definitions

* `BufferedMount` — the tree, the inode numbers and the daemon's open files
* `BufferedMount.Step` — a request, its reply, and what it leaves
-/

namespace Rspacefs

open Lib

/-- A plain tree with the daemon's tables. -/
structure BufferedMount where
  tree : Plain
  names : Interned Path
  nextFh : Fh
  openFiles : Fh → Option OpenFile

/-- What reading a handle gives. -/
def OpenFile.bytes : OpenFile → Option Bytes
  | .streaming ⟨.ok data⟩ => some data
  | .buffered _ data _ _ => some data
  | _ => none

/-- The handle has nothing to flush. -/
def OpenFile.clean : OpenFile → Bool
  | .buffered _ _ dirty _ => !dirty
  | _ => true

namespace BufferedMount

variable (m : BufferedMount)

@[simps]
def numbered (p : Path) : BufferedMount := { m with names := m.names.intern p }

def opened (file : OpenFile) : BufferedMount :=
  { m with nextFh := m.nextFh + 1, openFiles := Function.update m.openFiles m.nextFh (some file) }

@[simps]
def withFile (fh : Fh) (file : Option OpenFile) : BufferedMount :=
  { m with openFiles := Function.update m.openFiles fh file }

@[simps]
def put (p : Path) (node : Node) : BufferedMount :=
  { m with tree := Function.update m.tree p (some node) }

@[simps]
def drop (p : Path) : BufferedMount :=
  { m with tree := Function.update m.tree p none, names := m.names.unbind p }

/-- The last state of a handle counts. -/
@[simp] theorem withFile_withFile (fh : Fh) (f f' : Option OpenFile) :
    (m.withFile fh f).withFile fh f' = m.withFile fh f' := by
  simp [withFile]

/-- A request that the daemon serves over a plain tree, its reply, and what is behind it. -/
inductive Step (m : BufferedMount) : Request → Except Errno Reply → BufferedMount → Prop
  | lookup {parent : Ino} {name : Name} {p : Path} {node : Node} (hp : m.names.Child parent name p)
      (hnode : m.tree p = some node) :
      Step m (.lookup parent name) (.ok (.entry (node.attr (m.names.numberOf p)))) (m.numbered p)
  | lookupMissing {parent : Ino} {name : Name} {p : Path} (hp : m.names.Child parent name p)
      (hnone : m.tree p = none) : Step m (.lookup parent name) (.error .enoent) m
  | getattr {ino : Ino} {p : Path} {node : Node} (hp : m.names.key ino = some p)
      (hnode : m.tree p = some node) : Step m (.getattr ino) (.ok (.attr (node.attr ino))) m
  | truncate {ino : Ino} {p : Path} {c : Bytes} {applied : Except Errno Unit}
      (hp : m.names.key ino = some p) (hfile : m.tree p = some (.file c)) :
      Step m (.setattr ino ⟨some 0, false, applied⟩) (.ok (.attr (Node.attr ino (.file []))))
        (m.put p (.file []))
  | readdir {ino : Ino} {d : Path} {ns : List Name} {offset capacity : Nat}
      (hd : m.names.key ino = some d) (hsorted : ns.Pairwise (· < ·))
      (hall : ∀ n, n ∈ ns ↔ m.tree (d ++ [n]) ≠ none) :
      Step m (.readdir ino offset capacity)
        (.ok (.directory (((m.names.listing m.tree.kind ino d ns).drop offset).take capacity)))
        { m with names := m.names.internAll d ns }
  | mkdir {parent : Ino} {name : Name} {p : Path} (hp : m.names.Child parent name p)
      (hparent : m.tree p.dropLast = some .dir) (hfree : m.tree p = none) :
      Step m (.mkdir parent name) (.ok (.entry (Node.attr (m.names.numberOf p) .dir)))
        ((m.put p .dir).numbered p)
  | mkdirThere {parent : Ino} {name : Name} {p : Path} (hp : m.names.Child parent name p)
      (hthere : m.tree p ≠ none) : Step m (.mkdir parent name) (.error .eexist) m
  | rmdir {parent : Ino} {name : Name} {p : Path} (hp : m.names.Child parent name p)
      (hdir : m.tree p = some .dir) (hempty : ∀ n, m.tree (p ++ [n]) = none) :
      Step m (.rmdir parent name) (.ok .ok) (m.drop p)
  | rmdirFull {parent : Ino} {name n : Name} {p : Path} (hp : m.names.Child parent name p)
      (hfull : m.tree (p ++ [n]) ≠ none) : Step m (.rmdir parent name) (.error .enotempty) m
  | openWrite {ino : Ino} {p : Path} {c : Bytes} {flags : OpenFlags} {backed : Bool}
      (hp : m.names.key ino = some p) (hfile : m.tree p = some (.file c))
      (hflags : flags.writable = true) :
      Step m (.openInode ino flags backed) (.ok (.opened m.nextFh))
        (m.opened (.buffered p (flags.openedContent c) false true))
  | openRead {ino : Ino} {p : Path} {c : Bytes} {flags : OpenFlags} {backed : Bool}
      (hp : m.names.key ino = some p) (hfile : m.tree p = some (.file c))
      (hflags : flags.writable = false) :
      Step m (.openInode ino flags backed) (.ok (.opened m.nextFh)) (m.opened (.streaming ⟨.ok c⟩))
  | read {fh : Fh} {file : OpenFile} {a : Bytes} {offset size : Nat}
      (hfile : m.openFiles fh = some file) (hbytes : file.bytes = some a) :
      Step m (.read fh offset size) (.ok (.data (slice a offset size))) m
  | write {fh : Fh} {p : Path} {a data : Bytes} {dirty : Bool} {offset : Nat}
      (hfile : m.openFiles fh = some (.buffered p a dirty true)) :
      Step m (.write fh offset data) (.ok (.written data.length))
        (m.withFile fh (some (.buffered p (splice a offset data) true true)))
  | fsyncClean {fh : Fh} {file : OpenFile} (hfile : m.openFiles fh = some file)
      (hclean : file.clean = true) : Step m (.fsync fh) (.ok .ok) m
  | fsyncDirty {fh : Fh} {p : Path} {a c : Bytes}
      (hfile : m.openFiles fh = some (.buffered p a true true))
      (hthere : m.tree p = some (.file c)) :
      Step m (.fsync fh) (.ok .ok)
        ((m.put p (.file a)).withFile fh (some (.buffered p a false true)))
  | releaseClean {fh : Fh} {file : OpenFile} (hfile : m.openFiles fh = some file)
      (hclean : file.clean = true) : Step m (.release fh) (.ok .ok) (m.withFile fh none)
  | releaseDirty {fh : Fh} {p : Path} {a c : Bytes}
      (hfile : m.openFiles fh = some (.buffered p a true true))
      (hthere : m.tree p = some (.file c)) :
      Step m (.release fh) (.ok .ok) ((m.put p (.file a)).withFile fh none)
  | noHandle {fh : Fh} {r : Request} (hr : r.Uses fh) (hnone : m.openFiles fh = none) :
      Step m r (.error .ebadf) m
  | create {parent : Ino} {name : Name} {p : Path} {flags : OpenFlags}
      (hp : m.names.Child parent name p) (hparent : m.tree p.dropLast = some .dir)
      (hfree : m.tree p = none) :
      Step m (.create parent name flags)
        (.ok (.created (Node.attr (m.names.numberOf p) (.file [])) m.nextFh))
        (((m.put p (.file [])).numbered p).opened (.buffered p [] false true))
  | createTrunc {parent : Ino} {name : Name} {p : Path} {c : Bytes} {flags : OpenFlags}
      (hp : m.names.Child parent name p) (hfile : m.tree p = some (.file c))
      (htrunc : flags.trunc = true) (hexcl : flags.excl = false) :
      Step m (.create parent name flags)
        (.ok (.created (Node.attr (m.names.numberOf p) (.file [])) m.nextFh))
        (((m.put p (.file [])).numbered p).opened (.buffered p [] false true))
  -- the buffer starts empty, whatever is in the file
  | createThere {parent : Ino} {name : Name} {p : Path} {c : Bytes} {flags : OpenFlags}
      (hp : m.names.Child parent name p) (hfile : m.tree p = some (.file c))
      (htrunc : flags.trunc = false) (hexcl : flags.excl = false) :
      Step m (.create parent name flags)
        (.ok (.created (Node.attr (m.names.numberOf p) (.file c)) m.nextFh))
        ((m.numbered p).opened (.buffered p [] false true))
  | createRefused {parent : Ino} {name : Name} {p : Path} {flags : OpenFlags}
      (hp : m.names.Child parent name p) (hthere : m.tree p ≠ none) (hexcl : flags.excl = true) :
      Step m (.create parent name flags) (.error .eexist) m
  | unlink {parent : Ino} {name : Name} {p : Path} {c : Bytes} (hp : m.names.Child parent name p)
      (hfile : m.tree p = some (.file c)) : Step m (.unlink parent name) (.ok .ok) (m.drop p)
  | unlinkMissing {parent : Ino} {name : Name} {p : Path} (hp : m.names.Child parent name p)
      (hnone : m.tree p = none) : Step m (.unlink parent name) (.error .enoent) m
  | renameFile {parent newparent : Ino} {name newname : Name} {s p : Path} {c : Bytes}
      (hs : m.names.Child parent name s) (hp : m.names.Child newparent newname p)
      (hsource : m.tree s = some (.file c)) (hparent : m.tree p.dropLast = some .dir)
      (hfree : m.tree p = none) :
      Step m (.rename parent name newparent newname) (.ok .ok)
        { m with
          tree := Function.update (Function.update m.tree p (some (.file c))) s none
          names := m.names.rebind s p }
  -- the numbers below stay behind
  | renameDir {parent newparent : Ino} {name newname : Name} {s p : Path}
      (hs : m.names.Child parent name s) (hp : m.names.Child newparent newname p)
      (hsource : m.tree s = some .dir) (hparent : m.tree p.dropLast = some .dir)
      (hfree : m.tree p = none) (hapart : ¬ s <+: p) :
      Step m (.rename parent name newparent newname) (.ok .ok)
        { m with tree := m.tree.moved s p, names := m.names.rebind s p }
  | forgotten {ino : Ino} {r : Request} (hr : r.On ino) (hnone : m.names.key ino = none) :
      Step m r (.error .enoent) m
  | flush : Step m .flush (.ok .ok) m

end BufferedMount

end Rspacefs
