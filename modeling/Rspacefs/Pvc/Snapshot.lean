import Rspacefs.Core.ListingOrder
import Rspacefs.Core.Refines
import Rspacefs.Pvc.Blob

/-!
# The next boot

At the end of a boot the agent captures the upper directory of a PVC, and the next boot applies the
blob to an empty directory and mounts that as its top lower layer, below an empty upper. What the
first boot showed is then shown again, at every path and in every listing. The upper directory must
be one that the overlay left: it holds nothing beside its whiteout, and no opaque marker, which a
listing honours in the upper layer only.

## Main definitions

* `Remounts` — the capture and the application succeed, and the next boot shows what this one does

## Main results

* `readDir_remount` — the listings
* `remounts_of_run` — the upper layer that any run of allowed operations left
-/

namespace Rspacefs

open Lib LayerFS

variable {fs : Stack} {t : Tree} {d p : Path} {disk disk' : DiskTree}

theorem Node.onDisk_injective : Function.Injective Node.onDisk := by
  intro n m h
  cases n with
  | dir =>
    cases m with
    | dir => rfl
    | file c => cases h
  | file b =>
    cases m with
    | dir => cases h
    | file c =>
      obtain rfl := Option.some.inj (DiskNode.file.inj h)
      rfl

/-- Layers with the same directory on disk have the same entries. -/
theorem OnDisk.get?_eq {u : Tree} (ht : OnDisk t disk) (hu : OnDisk u disk) : t.get? = u.get? := by
  funext p
  exact Option.map_injective Node.onDisk_injective ((ht p).symm.trans (hu p))

/-- Layers without links can be archived as they are. -/
theorem OnDisk.plain (h : OnDisk t disk) (hnamed : disk.Named) : DiskTree.Plain disk := by
  have hcases : ∀ p n, disk.get? p = some n → ∃ m : Node, n = m.onDisk := by
    intro p n hp
    rw [h p, Option.map_eq_some_iff] at hp
    obtain ⟨m, -, rfl⟩ := hp
    exact ⟨m, rfl⟩
  refine ⟨hnamed, fun p hp => ?_, fun p x hp => ?_, fun p hp => ?_⟩ <;>
    obtain ⟨m, hm⟩ := hcases p _ hp <;> cases m <;> cases hm

/-! ### What the next boot lists -/

section Remount

variable (hget : t.get? = fs.upper.get?) (hopq : fs.upper.get? (opaquePath d) = none)
include hget hopq

theorem fileInTheWay_remount :
    FileInTheWay ⟨Tree.empty, t :: fs.lower⟩ d ↔ FileInTheWay fs d := by
  have hempty : Tree.empty.get? (opaquePath d) = none := by simp [opaquePath]
  have hroot : ¬ ∃ c, Tree.empty.get? d = some (.file c) := by
    rintro ⟨c, hc⟩
    rw [Tree.get?_empty] at hc
    split at hc <;> cases hc
  rw [FileInTheWay, FileInTheWay]
  simp only [hempty, hopq, hroot, false_or, true_and, List.mem_cons, exists_eq_or_imp, hget]

/-- A directory without an opaque marker, with nothing beside its whiteout, lists the same as an
upper and as a lower layer. -/
theorem readDir_remount (hpair : NoPair fs.upper) :
    LayerFS.readDir d ⟨Tree.empty, t :: fs.lower⟩ = LayerFS.readDir d fs := by
  have hway := fileInTheWay_remount hget hopq
  by_cases hfile : FileInTheWay fs d
  · rw [hfile.readDir, (hway.mpr hfile).readDir]
  obtain ⟨l, hl⟩ := exists_readDir hfile
  obtain ⟨l', hl'⟩ := exists_readDir (mt hway.mp hfile)
  have hmem : ∀ n, n ∈ l' ↔ n ∈ l := by
    intro n
    by_cases hn : IsMarker n
    · exact ⟨fun hm => absurd hn (not_isMarker_of_mem_readDir hl' hm),
        fun hm => absurd hn (not_isMarker_of_mem_readDir hl hm)⟩
    have hempty : Tree.empty.get? (d ++ [n]) = none := by simp
    have hclear : Tree.empty.hides (d ++ [n]) = false := by
      simp [Tree.hides, whiteoutPath_concat]
    have hopq' : Tree.empty.get? (opaquePath d) = none := by simp [opaquePath]
    have hhides : t.hides (d ++ [n]) = fs.upper.hides (d ++ [n]) := by
      rw [Tree.hides, Tree.hides, hget]
    rw [mem_readDir hn hl', mem_readDir hn hl]
    simp only [hempty, hclear, hopq', hopq, lowerLists, hhides, true_and, Option.isSome_none,
      Bool.false_eq_true, false_or, Bool.or_eq_true, Bool.and_eq_true, Bool.not_eq_true']
    -- an entry of the layer has no whiteout beside it, so it is shown
    cases hentry : fs.upper.get? (d ++ [n]) with
    | none =>
      have hnone : shownIn (t.children d) n = false := Tree.shownIn_of_none (hget ▸ hentry)
      simp [hnone]
    | some node =>
      have hsome : (t.get? (d ++ [n])).isSome := by simp [hget, hentry]
      have hvisible := hpair (d ++ [n]) (by simp) (by simp [hentry])
      have hshown := Tree.shownIn_children_of_get? hsome (hhides.trans hvisible)
      simp [hshown]
  rw [hl, hl', eq_of_mem_iff (pairwise_readDir hl') (pairwise_readDir hl) hmem]

end Remount

theorem view_remount (hget : t.get? = fs.upper.get?) (h : Regular fs) (hp : Unmarked p) :
    view ⟨Tree.empty, t :: fs.lower⟩ p = view fs p := by
  have hsame : view ⟨Tree.empty, t :: fs.lower⟩ p = view (pushDown fs.upper fs.lower) p := by
    have hverdict : t.lowerVerdict p = fs.upper.lowerVerdict p := by
      simp only [Tree.lowerVerdict, Tree.decision, Tree.hides, Tree.opaqueAbove, hget]
      rfl
    rw [view_eq, view_eq, pushDown, lowerView_cons, lowerView_cons, hverdict]
  rw [hsame, ← plainView_of_unmarked hp, plainView_pushDown h, plainView_of_unmarked hp]

/-! ### Capture, apply and mount -/

/-- Capturing the upper directory and applying the blob to an empty one succeed, and an overlay
over what was applied shows at every path, and lists in every directory, what this one does. -/
def Remounts (host : Host) (u : Unpacker) (opts : CaptureOptions) (fs : Stack)
    (disk : DiskTree) : Prop :=
  ∃ report blob applied disk',
    host.captureLayer (some disk) opts = .ok (report, blob) ∧
    u.applyBlob opts.outPath (some blob) (some .empty) = .ok (applied, disk') ∧
    applied.entries = report.entries ∧
    ∀ t, OnDisk t disk' → (∀ p, PlainPath p → view ⟨Tree.empty, t :: fs.lower⟩ p = view fs p) ∧
      ∀ d, LayerFS.readDir d ⟨Tree.empty, t :: fs.lower⟩ = LayerFS.readDir d fs

namespace Host

variable (host : Host) {u : Unpacker} {opts : CaptureOptions}

/-- A directory without links comes back from its archive. -/
theorem capture_apply (hflow : host.Flowing) (hcreates : host.creates = true) (hu : u.Restores)
    (hdest : u.createsDir = true) (hencodes : host.encodes opts.zstdLevel = true)
    (hcodec : host.Decodes u disk opts.zstdLevel) (hplain : DiskTree.Plain disk) :
    ∃ report blob applied disk', host.captureLayer (some disk) opts = .ok (report, blob) ∧
      u.applyBlob opts.outPath (some blob) (some .empty) = .ok (applied, disk') ∧
      applied.entries = report.entries ∧ ∀ p, disk'.get? p = disk.get? p := by
  have hroot := DiskTree.get?_root disk
  obtain ⟨es, disk', hes, hlaid⟩ := host.entriesBelow_unpack hu hplain (fits_root disk) hroot
    .empty (by simp) fun p _ hne => by rw [DiskTree.get?_empty, if_neg hne]
  refine ⟨_, _, ⟨es.length, (es.map TarEntry.size).sum⟩, disk',
    host.captureLayer_eq hflow hcreates hencodes hes, ?_, rfl, fun p => ?_⟩
  · rw [host.applyBlob_archive hcodec hdest hes]
    simpa [Unpacker.applyEntries] using hlaid.lays [] 0 0
  · by_cases hp : p = []
    · rw [hp, hlaid.off [] (by simp), hroot, DiskTree.get?_empty, if_pos rfl]
    · exact hlaid.on p ⟨List.nil_prefix, hp⟩

end Host

/-- Whatever run of allowed operations and reboots a PVC went through, its upper directory can be
captured, and the next boot over the captured layer shows and lists what this one does. -/
theorem remounts_of_run (host : Host) (u : Unpacker) (opts : CaptureOptions)
    (hflow : host.Flowing) (hcreates : host.creates = true) (hu : u.Restores)
    (hdest : u.createsDir = true) (hencodes : host.encodes opts.zstdLevel = true)
    (lower : List Tree) (hintact : Intact ⟨Tree.empty, lower⟩) (acts : List Life) (F' : Plain)
    (hrun : Steps Life.Step (plainView ⟨Tree.empty, lower⟩) acts F')
    (hclear : EachStep Life.next Life.Clear ⟨Tree.empty, lower⟩ acts) (disk : DiskTree)
    (hdisk : OnDisk (acts.foldl Life.next ⟨Tree.empty, lower⟩).upper disk) (hnamed : disk.Named)
    (hcodec : host.Decodes u disk opts.zstdLevel) :
    Remounts host u opts (acts.foldl Life.next ⟨Tree.empty, lower⟩) disk := by
  obtain ⟨-, hregular, -⟩ := regular_run (regular_fresh hintact) hrun hclear
  obtain ⟨report, blob, applied, disk', hcapture, happly, hcount, hsame⟩ :=
    host.capture_apply hflow hcreates hu hdest hencodes hcodec (hdisk.plain hnamed)
  refine ⟨report, blob, applied, disk', hcapture, happly, hcount, fun t ht => ?_⟩
  have hget := ht.get?_eq fun p => (hsame p).trans (hdisk p)
  exact ⟨fun p hp => view_remount hget hregular hp.unmarked, fun d =>
    readDir_remount hget (hregular.marks.opaquePath_eq_none d) hregular.noPair⟩

/-- The first boot writes one file. -/
def firstBoot : List Life := [.op (.createFile [['a']] [104, 105])]

theorem onDisk_firstBoot :
    OnDisk (firstBoot.foldl Life.next hostsStack).upper (oneEntry (.file (some [104, 105]))) := by
  have hplaced : Placed hostsStack (firstBoot.foldl Life.next hostsStack) [['a']]
      (.file [104, 105]) :=
    (writeNew_spec (createFile_spec hostsStack [['a']])).ok rfl (rfl : (thenWrite
      (LayerFS.createFile [['a']]) [104, 105]).run hostsStack = .ok () _)
  intro p
  rw [get?_oneEntry]
  by_cases hp : p = [['a']]
  · rw [if_pos hp, hp, hplaced.entry]
    rfl
  · rw [if_neg hp]
    by_cases hw : p = whiteoutPath [['a']]
    · rw [hw, hplaced.marker, if_neg (by decide)]
      rfl
    · have hsame := (hplaced.touched p hp hw).resolve_right fun h =>
        h.2.2.1 (by simpa using h.2.2.2)
      rw [hsame, hostsStack, Tree.get?_empty]
      split <;> rfl

theorem remounts_of_run_firstBoot :
    Remounts sampleHost sampleUnpacker ⟨"out".toList, 3⟩ (firstBoot.foldl Life.next hostsStack)
      (oneEntry (.file (some [104, 105]))) := by
  have hintact : Intact hostsStack := isTree_iff_intact.mp (isTree_single (by decide))
  have hclear : EachStep Life.next Life.Clear hostsStack firstBoot :=
    ⟨⟨by decide, trivial⟩, trivial⟩
  refine remounts_of_run sampleHost sampleUnpacker ⟨"out".toList, 3⟩ Host.flowing_sampleHost rfl
    Host.restores_sampleUnpacker rfl rfl hostsStack.lower hintact firstBoot _
    (.cons (.op (.createFile ?_ ?_)) (.nil _)) hclear _ onDisk_firstBoot (Host.named_oneEntry _)
    (Host.decodes_sampleHost rfl) <;> decide

end Rspacefs
