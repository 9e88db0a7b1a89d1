import Rspacefs.Core.Alongside
import Rspacefs.Verity.FailedRead
import Rspacefs.Verity.VerifiedFS
import Rspacefs.Verity.Verify
import Rspacefs.Vfs.Local

/-!
# An untampered layer behind its manifest

Over a layer that is as it was when its manifest was made, the verified reader gives what the
layer has: every block passes, whatever SHA-256 is. So a verified layer answers as the directory
under it, but for how it refuses to read a directory.

## Main results

* `VerifiedReader.run_read_untampered` — a read gives the slice of the pinned content
* `VerifiedFS.alongside` — a verified layer answers as its directory
-/

namespace Rspacefs

open Lib MerkleTree

variable {sha256 : Bytes → Hash256}

theorem Tree.get?_of_contentAt {t : Tree} {p : Path} {c : Bytes} (h : contentAt t p = .ok c) :
    t.get? p = some (.file c) := by
  rw [Tree.contentAt_eq] at h
  cases hn : t.get? p with
  | none =>
    rw [hn] at h
    cases h
  | some n =>
    rw [hn] at h
    cases n with
    | dir => cases h
    | file d =>
      obtain rfl := Except.ok.inj h
      rfl

namespace VerifiedReader

variable {blob c : Bytes} {layer : VerifiedLayer} {f : FileEntry} {r : VerifiedReader}

/-- A reader in a file of the layer, which has kept nothing but blocks of it. -/
structure Reading (layer : VerifiedLayer) (f : FileEntry) (c : Bytes) (r : VerifiedReader) :
    Prop where
  layer_eq : r.layer = layer
  entry_eq : r.entry = f
  current : ∀ i data, r.current = some (i, data) → data = block c i

section Untampered

variable (htree : layer.tree = build sha256 blob) (hroot : layer.rootHash = layer.tree.rootHash)
  (hsize : f.size = c.length) (hplaced : MerkleTree.Placed blob f c)
include hsize

theorem length_block_of_size (idx : Nat) : (block c idx).length = toRead f idx := by
  rw [toRead, hsize, block_eq_slice, length_slice, Nat.min_comm]

theorem Reading.kept (h : Reading layer f c r) : Kept r := by
  intro i data hcurrent
  rw [h.current i data hcurrent, h.entry_eq, length_block_of_size hsize]

include htree hroot hplaced

/-- A block of the file loads, whether it was kept or not. -/
theorem Reading.blockFor_eq {idx : Nat} (h : Reading layer f c r)
    (hidx : idx * blockSize < c.length) :
    blockFor (plainCheck sha256) (fun _ => .ok c) r idx = .ok (block c idx) := by
  unfold blockFor
  cases hkept : r.current.filter fun kept => kept.1 = idx ∧ idx = r.position / blockSize with
  | some kept =>
    obtain ⟨i, data⟩ := kept
    obtain ⟨hcurrent, hat⟩ := Option.filter_eq_some_iff.mp hkept
    obtain ⟨rfl, -⟩ := of_decide_eq_true hat
    exact congrArg Except.ok (h.current _ _ hcurrent)
  | none =>
    obtain ⟨hin, hblock⟩ := block_placed hplaced hidx
    have hlen := length_block_of_size hsize idx
    rw [block_eq_slice, length_slice] at hlen
    have hread : readExact (.ok c) (idx * blockSize) (toRead f idx) = .ok (block c idx) := by
      rw [readExact, if_pos (by omega), ← hlen, block_eq_slice]
      exact congrArg Except.ok slice_min_length
    have hverify : verifyBlock sha256 layer.tree (f.blockRange.1 + idx) (block c idx)
        layer.rootHash = true := by
      rw [hroot, htree]
      exact verifyBlock_build hin hblock.symm
    have hcheck : plainCheck sha256 layer f idx (block c idx) = .ok () := if_pos hverify
    rw [h.layer_eq, h.entry_eq]
    dsimp only
    rw [fetch, hread, ok_bind, hcheck]
    rfl

theorem Reading.run_readLoopBy (want : Nat) (h : Reading layer f c r) :
    ∃ r', (readLoopBy (plainCheck sha256) (fun _ => .ok c) want).run r =
      .ok (slice c r.position want) r' := by
  induction want using Nat.strongRecOn generalizing r with
  | _ want ih =>
    have hentry : r.entry.size = c.length := by rw [h.entry_eq, hsize]
    by_cases hstop : want = 0 ∨ r.entry.size ≤ r.position
    · have hnil : slice c r.position want = [] := by
        rcases hstop with rfl | hend
        · exact slice_zero
        · exact slice_of_length_le (hentry ▸ hend)
      exact ⟨r, by rw [run_readLoopBy_stop hstop, hnil]⟩
    · have hpos := hstop
      rw [not_or, Nat.not_le, hentry] at hpos
      have hdiv := Nat.div_add_mod' r.position blockSize
      have hmod := Nat.mod_lt r.position blockSize_pos
      have hin : r.position / blockSize * blockSize < c.length := by omega
      have hblock := h.blockFor_eq htree hroot hsize hplaced hin
      have htaken : 0 < taken r want := taken_pos hpos.1 (by omega)
      have hbehind : Reading layer f c (behind r want (block c (r.position / blockSize))) := by
        refine ⟨h.layer_eq, h.entry_eq, ?_⟩
        intro i data hcurrent
        cases hcurrent
        rfl
      obtain ⟨r', hrest⟩ := ih (want - taken r want) (by omega) hbehind
      -- what the loop takes ends at the end of the block
      have hroom : r.position % blockSize + taken r want ≤ blockSize := by
        have hle := length_block_le c (r.position / blockSize)
        rw [length_block_of_size hsize] at hle
        rw [taken, h.entry_eq]
        omega
      have hpiece : slice (block c (r.position / blockSize)) (r.position % blockSize)
          (taken r want) = slice c r.position (taken r want) := by
        rw [block_eq_slice, slice_slice hroom, hdiv]
      have hwhole : slice c r.position (taken r want) ++
          slice c (behind r want (block c (r.position / blockSize))).position
            (want - taken r want) = slice c r.position want := by
        have hle : taken r want ≤ want := Nat.min_le_right _ _
        rw [behind, slice_append_slice, Nat.add_sub_cancel' hle]
      refine ⟨r', ?_⟩
      rw [run_readLoopBy_step (h.kept hsize) hstop hblock, ← bind_pure_comp, run_bind_of_ok hrest,
        hpiece]
      exact congrArg (EStateM.Result.ok · r') hwhole

/-- A read of an untampered file gives its bytes. -/
theorem run_read_untampered (size : Nat) :
    ∃ r', (read sha256 (fun _ => .ok c) size).run (new layer f) = .ok (slice c 0 size) r' := by
  have hfresh : Reading layer f c (new layer f) := ⟨rfl, rfl, nofun⟩
  rw [read_eq_readBy, run_readBy]
  exact hfresh.run_readLoopBy htree hroot hsize hplaced size

end Untampered

end VerifiedReader

namespace VerifiedFS

variable {frames : Nat} {tree : MerkleTree} {manifest : LayerManifest} {onFailure : OnFailure}
  {t : Tree} {v : VerifiedFS sha256 Tree}

/-- What a verified file gives is what is in the file, if the file is in the manifest. -/
theorem readToEnd_untampered {layer : VerifiedLayer} {f : FileEntry} {blob c : Bytes}
    {inner : Reader} (htree : layer.tree = build sha256 blob)
    (hroot : layer.rootHash = layer.tree.rootHash) (hsize : f.size = c.length)
    (hplaced : MerkleTree.Placed blob f c) (hinner : inner.readToEnd = .ok c) :
    readToEnd sha256 layer f inner = .ok c := by
  obtain ⟨r', hrun⟩ :=
    VerifiedReader.run_read_untampered htree hroot hsize hplaced f.size
  rw [readToEnd, hinner, hrun, hsize]
  exact congrArg Except.ok (by simp [slice])

/-- A verified layer answers as the directory that its manifest was made of. -/
theorem alongside (hbuild : buildFromVfs sha256 frames t = .ok (tree, manifest))
    (hload : loadPinned t manifest tree onFailure = .ok v) : Alongside t v := by
  obtain rfl := loadPinned_eq_ok hload
  obtain ⟨⟨blob, files⟩, hdata, hbuild⟩ := except_bind_eq_ok.mp hbuild
  obtain ⟨rfl, rfl⟩ := Prod.mk.inj (Except.ok.inj hbuild)
  refine ⟨fun _ => rfl, fun _ => rfl, fun _ => rfl, fun p => ?_⟩
  change Alike Eq (contentAt t p) (VerifiedFS.openFile _ p >>= Reader.readToEnd)
  unfold contentAt VerifiedFS.openFile
  rw [bind_assoc]
  refine (Alike.of_eq (fun _ => rfl) rfl).bind ?_
  rintro inner _ hopen - rfl
  dsimp only
  cases hfind : files.find? (·.path = p) with
  | some f =>
    -- what is in the manifest is a file, and in place
    have hpath := List.find?_some hfind
    obtain rfl : f.path = p := of_decide_eq_true hpath
    obtain ⟨md, c, hmd, hc, hsize, hplaced⟩ := placed_of_mem hdata (List.mem_of_find?_eq_some hfind)
    have hlen : f.size = c.length := hsize.trans ((t.honest f.path).len_eq md c hmd hc)
    have hinner : inner.readToEnd = .ok c := by rwa [contentAt, hopen] at hc
    change Alike Eq inner.readToEnd (readToEnd sha256 _ f inner)
    rw [readToEnd_untampered rfl rfl hlen hplaced hinner, hinner]
    rfl
  | none =>
    -- what is not is a directory, which is refused either way
    cases hread : inner.readToEnd with
    | error e => exact True.intro
    | ok c =>
      have hc : contentAt t p = .ok c := by rw [contentAt, hopen]; exact hread
      obtain ⟨paths, hpaths, hfiles⟩ := paths_of_layerData hdata
      have hmem : p ∈ files.map (·.path) := by
        rw [hfiles, mem_sortedKeys, mem_collectFiles hpaths]
        exact ⟨List.nil_prefix, c, Tree.get?_of_contentAt hc⟩
      obtain ⟨f, hf, rfl⟩ := List.mem_map.mp hmem
      exact absurd (decide_eq_true rfl) (List.find?_eq_none.mp hfind f hf)

end VerifiedFS

end Rspacefs
