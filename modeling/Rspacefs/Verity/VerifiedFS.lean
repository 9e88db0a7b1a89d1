import Rspacefs.Core.Cache
import Rspacefs.Verity.Reader

/-!
# A verified layer in an overlay

`VerifiedFS` of `rspacefs-verity/src/verity.rs`: a directory with a manifest and a Merkle
tree. A file that is opened is checked block by block as it is read. Whether a path is
there, what a directory lists and which markers it has come from the directory as it is.

So reading a path that a pinned layer had gives the pinned bytes or fails, unless the
layer lets the path pass to the layers below: its file was removed.

## Main definitions

* `VerifiedFS`, `VerifiedFS.loadPinned` — the filesystem, and how it is pinned
* `LowerFS` — the lower layers of an overlay, plain or verified

## Main results

* `VerifiedFS.contentAt_eq_ok` — what a pinned layer serves is what was pinned
* `tamper_evident_iff` — when an overlay over a tampered layer serves nothing else
-/

namespace Rspacefs

open Lib LayerFS MerkleTree

/-- A directory with what is pinned about it. -/
structure VerifiedFS (sha256 : Bytes → Hash256) (σ : Type) where
  inner : σ
  layer : VerifiedLayer

namespace VerifiedFS

variable {sha256 : Bytes → Hash256} {σ : Type}

/-- `load_pinned`, once both files are parsed: they must agree on the root. -/
def loadPinned (inner : σ) (manifest : LayerManifest) (tree : MerkleTree)
    (onFailure : OnFailure) : VfsResult (VerifiedFS sha256 σ) :=
  if tree.rootHash ≠ manifest.rootHash then
    .error (.other "manifest root_hash != tree root_hash — files don't match")
  else .ok ⟨inner, tree, manifest, manifest.rootHash, onFailure⟩

theorem loadPinned_eq_ok {inner : σ} {manifest : LayerManifest} {tree : MerkleTree}
    {onFailure : OnFailure} {v : VerifiedFS sha256 σ}
    (h : loadPinned inner manifest tree onFailure = .ok v) :
    v = ⟨inner, tree, manifest, manifest.rootHash, onFailure⟩ := by
  unfold loadPinned at h
  split at h
  · cases h
  · exact (Except.ok.inj h).symm

/-- The file read to the end through the verified reader. -/
def readToEnd (sha256 : Bytes → Hash256) (layer : VerifiedLayer) (entry : FileEntry)
    (inner : Reader) : VfsResult Bytes :=
  match (VerifiedReader.read sha256 (fun _ => inner.readToEnd) entry.size).run
    (VerifiedReader.new layer entry) with
  | .ok data _ => .ok data
  | .error _ _ => .error .ioError

variable [FileSystem σ]

def openFile (v : VerifiedFS sha256 σ) (path : Path) : VfsResult Reader := do
  let inner ← FileSystem.openFile v.inner path
  match v.layer.manifest.files.find? (·.path = path) with
  | none => throw (.other ("verity: " ++ String.ofList (relPath path) ++ " not in manifest"))
  | some entry => return ⟨readToEnd sha256 v.layer entry inner⟩

instance : FileSystem (VerifiedFS sha256 σ) where
  readDir v path := readDir v.inner path
  openFile := openFile
  metadata v path := metadata v.inner path
  existsAt v path := existsAt v.inner path
  createDir _ := throw .notSupported
  createFile _ := throw .notSupported
  appendFile _ := throw .notSupported
  removeFile _ := throw .notSupported
  removeDir _ := throw .notSupported
  -- no method returns a writer
  writeAll _ _ := throw .notSupported

end VerifiedFS

/-- A lower layer of an overlay: any filesystem, or a verified directory. -/
inductive LowerFS (sha256 : Bytes → Hash256) (ℓ σ : Type)
  | plain (layer : ℓ)
  | verified (layer : VerifiedFS sha256 σ)

namespace LowerFS

variable {sha256 : Bytes → Hash256} {ℓ σ : Type}

/-- A call that changes the filesystem, passed on. -/
def dispatch {α : Type} (x : VfsM ℓ α) (y : VfsM (VerifiedFS sha256 σ) α) :
    VfsM (LowerFS sha256 ℓ σ) α
  | .plain l => match x.run l with
    | .ok a l' => .ok a (.plain l')
    | .error e l' => .error e (.plain l')
  | .verified v => match y.run v with
    | .ok a v' => .ok a (.verified v')
    | .error e v' => .error e (.verified v')

variable [FileSystem ℓ] [FileSystem σ]

instance : FileSystem (LowerFS sha256 ℓ σ) where
  readDir
    | .plain l => readDir l
    | .verified v => readDir v
  openFile
    | .plain l => openFile l
    | .verified v => openFile v
  metadata
    | .plain l => metadata l
    | .verified v => metadata v
  existsAt
    | .plain l => existsAt l
    | .verified v => existsAt v
  createDir path := dispatch (FileSystem.createDir path) (FileSystem.createDir path)
  createFile path := dispatch (FileSystem.createFile path) (FileSystem.createFile path)
  appendFile path := dispatch (FileSystem.appendFile path) (FileSystem.appendFile path)
  removeFile path := dispatch (FileSystem.removeFile path) (FileSystem.removeFile path)
  removeDir path := dispatch (FileSystem.removeDir path) (FileSystem.removeDir path)
  writeAll w bytes := dispatch (FileSystem.writeAll w bytes) (FileSystem.writeAll w bytes)

end LowerFS

/-! ### What a pinned layer serves -/

variable {sha256 : Bytes → Hash256} {σ : Type} [FileSystem σ]

/-- `SHA-256` has no collision among what was hashed to pin the layer and what is hashed
to read `path` of the directory `u`. -/
def TrustedAt (sha256 : Bytes → Hash256) (frames : Nat) (pinned u : σ) (path : Path) : Prop :=
  ∀ blob files, layerData sha256 frames pinned = .ok (blob, files) →
    ∀ f ∈ files, f.path = path →
      VerifiedReader.Trusted sha256 blob f fun _ => contentAt u path

/-- Metadata says how long a file is, and what can be read is there. -/
structure Honest (u : σ) (path : Path) : Prop where
  len_eq : ∀ md c, metadata u path = .ok md → contentAt u path = .ok c → md.len = c.length
  exists_of_content : ∀ c, contentAt u path = .ok c → existsAt u path = .ok true

theorem Tree.honest (t : Tree) (path : Path) : Honest t path := by
  have hread : ∀ c, contentAt t path = .ok c → t.get? path = some (.file c) := by
    intro c hc
    obtain ⟨reader, hopen, hc⟩ := except_bind_eq_ok.mp hc
    cases hn : t.get? path with
    | none =>
      change Tree.openFile t path = _ at hopen
      rw [Tree.openFile, hn] at hopen
      cases hopen
    | some n =>
      rw [Tree.openFile_of_some hn] at hopen
      obtain rfl := Except.ok.inj hopen
      cases n with
      | dir => cases hc
      | file d =>
        obtain rfl := Except.ok.inj hc
        rfl
  constructor
  · intro md c hmd hc
    rw [Tree.metadata_of_some (hread c hc)] at hmd
    obtain rfl := Except.ok.inj hmd
    rfl
  · intro c hc
    rw [Tree.existsAt_eq, hread c hc]
    rfl

namespace VerifiedFS

variable {frames : Nat} {pinned u : σ} {tree : MerkleTree} {manifest : LayerManifest}
  {path : Path} {c : Bytes}

/-- A verified read of a file of a pinned layer gives what was pinned. -/
theorem readToEnd_eq_ok (hbuild : buildFromVfs sha256 frames pinned = .ok (tree, manifest))
    {f : FileEntry} (hf : f ∈ manifest.files)
    (hlen : ∀ md d, metadata pinned f.path = .ok md → contentAt pinned f.path = .ok d →
      md.len = d.length)
    {inner : Reader}
    (htrust : ∀ blob files, layerData sha256 frames pinned = .ok (blob, files) →
      VerifiedReader.Trusted sha256 blob f fun _ => inner.readToEnd)
    (h : readToEnd sha256 ⟨tree, manifest, manifest.rootHash, .reject⟩ f inner = .ok c) :
    contentAt pinned f.path = .ok c := by
  obtain ⟨⟨blob, files⟩, hdata, hbuild⟩ := except_bind_eq_ok.mp hbuild
  obtain ⟨rfl, rfl⟩ := Prod.mk.inj (Except.ok.inj hbuild)
  obtain ⟨md, d, hmd, hd, hsize, hplaced⟩ := placed_of_mem hdata hf
  rw [hlen md d hmd hd] at hsize
  have hpinned : ∀ m, VerifiedReader.Pinned sha256 blob d (VerifiedReader.new
      ⟨build sha256 blob, m, (build sha256 blob).rootHash, .reject⟩ f) :=
    fun m => ⟨rfl, rfl, rfl, hsize, hplaced, nofun⟩
  unfold readToEnd at h
  split at h
  · rename_i data r' hrun
    obtain ⟨hslice, -⟩ :=
      (VerifiedReader.read_spec f.size (hpinned _) (htrust blob files hdata)).ok rfl hrun
    rw [hsize] at hslice
    obtain rfl := Except.ok.inj h
    rw [hd, hslice]
    exact congrArg Except.ok (by simp [slice, VerifiedReader.new])
  · cases h

/-- What a pinned layer serves is what was pinned, whatever its directory holds. -/
theorem contentAt_eq_ok (hbuild : buildFromVfs sha256 frames pinned = .ok (tree, manifest))
    (hhonest : Honest pinned path) (htrust : TrustedAt sha256 frames pinned u path)
    (h : contentAt (⟨u, tree, manifest, manifest.rootHash, .reject⟩ : VerifiedFS sha256 σ) path =
      .ok c) :
    contentAt pinned path = .ok c := by
  obtain ⟨reader, hopen, hread⟩ := except_bind_eq_ok.mp h
  obtain ⟨inner, hinner, hopen⟩ := except_bind_eq_ok.mp hopen
  dsimp only at hopen
  split at hopen
  · cases hopen
  · rename_i f hf
    obtain rfl := Except.ok.inj hopen
    have hpath := List.find?_some hf
    obtain rfl : f.path = path := of_decide_eq_true hpath
    have hmem := List.mem_of_find?_eq_some hf
    refine readToEnd_eq_ok hbuild hmem hhonest.len_eq (fun blob files hdata => ?_) hread
    have hfiles : f ∈ files := by
      obtain ⟨d, hd, hbuild⟩ := except_bind_eq_ok.mp hbuild
      obtain rfl := Except.ok.inj (hdata.symm.trans hd)
      obtain ⟨-, rfl⟩ := Prod.mk.inj (Except.ok.inj hbuild)
      exact hmem
    have htrusted := htrust blob files hdata f hfiles rfl
    rwa [contentAt, hinner, ok_bind] at htrusted

end VerifiedFS

/-! ### Reading through the overlay -/

variable {υ ℓ : Type} [FileSystem υ] [FileSystem ℓ]

/-- The overlay with a verified layer among the lower ones. -/
abbrev overlayOf (u : υ) (above : List (LowerFS sha256 ℓ σ)) (v : VerifiedFS sha256 σ)
    (below : List (LowerFS sha256 ℓ σ)) : LayerFS υ (LowerFS sha256 ℓ σ) :=
  ⟨u, above ++ .verified v :: below⟩

/-- After a pinned layer was tampered with, a read through the overlay gives the bytes it
gave before or fails, exactly unless the layer served the path, lets it pass now, and the
overlay without that layer shows other bytes. -/
theorem tamper_evident_iff (sha256 : Bytes → Hash256) (frames : Nat) (pinned tampered : σ)
    (tree : MerkleTree) (manifest : LayerManifest)
    (hbuild : buildFromVfs sha256 frames pinned = .ok (tree, manifest))
    (v v' : VerifiedFS sha256 σ) (hv : VerifiedFS.loadPinned pinned manifest tree .reject = .ok v)
    (hv' : VerifiedFS.loadPinned tampered manifest tree .reject = .ok v') (u : υ)
    (above below : List (LowerFS sha256 ℓ σ)) (κ : Caches)
    (hκ : κ.SoundBut (overlayOf u above v' below).lower above.length) (path : Path)
    (hhonest : Honest pinned path) (htrust : TrustedAt sha256 frames pinned pinned path)
    (htrust' : TrustedAt sha256 frames pinned tampered path) (c : Bytes)
    (hc : contentAt (overlayOf u above v below) path = .ok c) :
    (∀ c' κ', (Cached.contentAt path (overlayOf u above v' below)).run κ = .ok c' κ' → c' = c) ↔
      ¬ (resolve path (overlayOf u above v below) =
          .ok (some (.lower above.length (.verified v))) ∧
        Passes (κ.whiteoutNames (overlayOf u above v' below).lower)
          (κ.isOpaqueDir (overlayOf u above v' below).lower) path above.length
          (LowerFS.verified v' : LowerFS sha256 ℓ σ) ∧
        ∃ d, contentAt (⟨u, above ++ below⟩ : LayerFS υ _) path = .ok d ∧ d ≠ c) := by
  obtain rfl := VerifiedFS.loadPinned_eq_ok hv
  obtain rfl := VerifiedFS.loadPinned_eq_ok hv'
  rw [Cached.forall_contentAt_iff]
  obtain ⟨r, hr, hrc⟩ := contentAt_eq_ok.mp hc
  obtain ⟨hsame, hother⟩ | ⟨hstop, hfound', hfound⟩ | ⟨hpass, hfound, hbelow, hwithout⟩ :=
    resolve_replace path u (LowerFS.verified ⟨pinned, tree, manifest, manifest.rootHash, .reject⟩) hκ
  · -- the path resolves as before, to another layer
    refine iff_of_true ?_ fun h => hother _ h.1
    rintro c' ⟨r', hr', hc'⟩
    obtain rfl := Option.some.inj (Except.ok.inj (hr.symm.trans (hsame.symm.trans hr')))
    rw [Resolved.contentAt_lower] at hc'
    exact Except.ok.inj (hc'.symm.trans hrc)
  · -- the layer answers: with the pinned bytes, if with any
    refine iff_of_true ?_ fun h => hstop h.2.1
    rintro c' ⟨r', hr', hc'⟩
    obtain rfl := hfound' r' hr'
    have hpinned' := VerifiedFS.contentAt_eq_ok hbuild hhonest htrust' hc'
    obtain rfl | hmissing := hfound r hr
    · have hpinned := VerifiedFS.contentAt_eq_ok hbuild hhonest htrust hrc
      exact Except.ok.inj (hpinned'.symm.trans hpinned)
    · have hthere := hhonest.exists_of_content c' hpinned'
      exact absurd (hthere.symm.trans hmissing) (by simp)
  · -- the layer lets the path pass
    obtain rfl := hfound r hr
    rw [hbelow, and_iff_right hr, and_iff_right hpass, not_exists]
    constructor
    · rintro h d ⟨hd, hne⟩
      obtain ⟨r', hr', hd⟩ := contentAt_eq_ok.mp hd
      rw [hwithout] at hr'
      exact hne (h d (contentAt_resolveLower _ _ below _ _ u ⟨r', hr', hd⟩))
    · intro h c' hc'
      by_contra hne
      obtain ⟨r', hr', hd⟩ := contentAt_resolveLower _ above.length below _ (above ++ below) u hc'
      exact h c' ⟨contentAt_eq_ok.mpr ⟨r', hwithout.trans hr', hd⟩, hne⟩

/-- The pinned layer of one file, over a directory as it is now. -/
def oneByteVerified (inner : Tree) : VerifiedFS VerifiedReader.oneByteSha256 Tree :=
  ⟨inner, ⟨[secondDigest], 1, 1⟩, VerifiedReader.oneByteManifest, secondDigest, .reject⟩

theorem loadPinned_oneByte (inner : Tree) :
    VerifiedFS.loadPinned inner VerifiedReader.oneByteManifest ⟨[secondDigest], 1, 1⟩ .reject =
      .ok (oneByteVerified inner) :=
  if_neg (not_not_intro rfl)

theorem trustedAt_oneByte {u : Tree}
    (h : contentAt u ["f".toList] = .ok [1] ∨ contentAt u ["f".toList] = .ok [2] ∨
      ∃ e, contentAt u ["f".toList] = .error e) :
    TrustedAt VerifiedReader.oneByteSha256 8 VerifiedReader.oneByteLayer u ["f".toList] := by
  intro blob files hdata f hf _
  obtain ⟨rfl, rfl⟩ :=
    Prod.mk.inj (Except.ok.inj (VerifiedReader.layerData_oneByte.symm.trans hdata))
  obtain rfl := List.mem_singleton.mp hf
  rcases h with h | h | ⟨e, h⟩
  · rw [h]
    exact VerifiedReader.trusted_oneByte (Or.inl rfl)
  · rw [h]
    exact VerifiedReader.trusted_oneByte (Or.inr rfl)
  · rw [h]
    intro idx content _ hcontent
    cases hcontent

/-- An older layer with another version of the file. -/
def olderLayer : LowerFS VerifiedReader.oneByteSha256 Tree Tree :=
  .plain (Tree.ofEntries [(["f".toList], .file [2])])

/-- The file is removed from the pinned layer, and the older layer below answers. -/
theorem older_version_served :
    buildFromVfs VerifiedReader.oneByteSha256 8 VerifiedReader.oneByteLayer =
        .ok (⟨[secondDigest], 1, 1⟩, VerifiedReader.oneByteManifest) ∧
      VerifiedFS.loadPinned VerifiedReader.oneByteLayer VerifiedReader.oneByteManifest
        ⟨[secondDigest], 1, 1⟩ .reject = .ok (oneByteVerified VerifiedReader.oneByteLayer) ∧
      contentAt (overlayOf Tree.empty [] (oneByteVerified VerifiedReader.oneByteLayer) [olderLayer])
        ["f".toList] = .ok [1] ∧
      TrustedAt VerifiedReader.oneByteSha256 8 VerifiedReader.oneByteLayer Tree.empty
        ["f".toList] ∧
      ∃ κ, (Cached.contentAt ["f".toList]
        (overlayOf Tree.empty [] (oneByteVerified Tree.empty) [olderLayer])).run Caches.empty =
          .ok [2] κ := by
  refine ⟨VerifiedReader.buildFromVfs_oneByte, loadPinned_oneByte _, by decide +kernel,
    trustedAt_oneByte (Or.inr (Or.inr ⟨_, rfl⟩)), ?_⟩
  rw [Cached.contentAt_eq_ok]
  exact ⟨.lower 1 olderLayer, rfl, rfl⟩

theorem tamper_evident_iff_oneByte :
    ¬ ∃ c' κ', (Cached.contentAt ["f".toList] (overlayOf Tree.empty []
      (oneByteVerified (Tree.ofEntries [(["f".toList], .file [2])])) [olderLayer])).run
        Caches.empty = .ok c' κ' ∧ c' ≠ [1] := by
  rintro ⟨c', κ', hrun, hne⟩
  refine hne ((tamper_evident_iff VerifiedReader.oneByteSha256 8 VerifiedReader.oneByteLayer _ _ _
    VerifiedReader.buildFromVfs_oneByte _ _ (loadPinned_oneByte _) (loadPinned_oneByte _) _ _ _ _
    (Caches.soundBut_empty _ _) _ (Tree.honest _ _)
    (trustedAt_oneByte (Or.inl rfl)) (trustedAt_oneByte (Or.inr (Or.inl rfl))) _
    (by decide +kernel)).mpr ?_ c' κ' hrun)
  rintro ⟨-, hpass, -⟩
  exact absurd hpass.missing (by decide)

end Rspacefs
