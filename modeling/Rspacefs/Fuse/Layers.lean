import Rspacefs.Fuse.Touch

/-!
# The layer a path comes from

Three loops look for the layer of a path: `LayerFS::resolve`, the side-channel
`physical_for_with_layer`, and `rspacefs overlay stat` of `rspacefs-cli/src/main.rs`.
Only the first honours every marker, but over directories without symbolic links it
never takes a later layer than the others: each of its early exits ends the search.

## Main definitions

* `Resolved.index` — the number of the layer `resolve` found, 0 for the upper one
* `overlayStat` — what `overlay stat` prints
* `LinkFree` — a directory in which no path is, or leads through, a symbolic link

## Main results

* `resolve_names_layer` — the side-channel and `overlay stat` name the same layer, and
  a read-only open is passed through only if that layer is not verified
-/

namespace Rspacefs

open Lib LayerFS Fuse

variable {υ ℓ σ : Type} {p : Path} {fs : LayerFS υ ℓ} {r : Resolved ℓ}

/-- The number of the layer, where 0 is the upper one. -/
def LayerFS.Resolved.index : Resolved ℓ → Nat
  | .upper => 0
  | .lower i _ => i + 1

variable [PhysicalFS υ] [PhysicalFS ℓ] [PhysicalFS σ]

/-! ### `rspacefs overlay stat` -/

/-- What `overlay stat` prints. -/
inductive StatOutput
  | notFound
  | entry (fileType : VfsFileType) (size : Nat) (layer : Option Nat)
  deriving DecidableEq, Repr

/-- The first of the layers, numbered from `i` on, in which the path exists. -/
def firstExisting (path : Path) : Nat → List σ → Option Nat
  | _, [] => none
  | i, layer :: rest => if found layer path then some i else firstExisting path (i + 1) rest

/-- The layer that `overlay stat` prints: each is checked in priority order. -/
def statLayer (path : Path) (fs : LayerFS υ ℓ) : Option Nat :=
  if found fs.upper path then some 0 else firstExisting path 1 fs.lower

/-- `rspacefs overlay stat`. -/
def overlayStat (path : Path) (fs : LayerFS υ ℓ) : VfsResult StatOutput := do
  if !(← FileSystem.existsAt fs path) then return .notFound
  else
    let md ← FileSystem.metadata fs path
    return .entry md.fileType md.len (statLayer path fs)

/-! ### Directories without links -/

/-- In a directory without symbolic links nothing changes when links are followed. -/
structure LinkFree (u : σ) : Prop where
  existsAt_eq : ∀ p, existsAt u p = .ok (symlinkMetadata u p).isSome
  metadata_ok : ∀ p, (symlinkMetadata u p).isSome → ∃ md, metadata u p = .ok md

variable {u : σ}

theorem LinkFree.isSome_eq (h : LinkFree u) {b : Bool} (hb : existsAt u p = .ok b) :
    (symlinkMetadata u p).isSome = b :=
  Except.ok.inj ((h.existsAt_eq p).symm.trans hb)

theorem Tree.linkFree (t : Tree) : LinkFree t := by
  refine ⟨fun p => by rw [Tree.isSome_symlinkMetadata, Tree.existsAt_eq], fun p hp => ?_⟩
  rw [Tree.isSome_symlinkMetadata] at hp
  obtain ⟨n, hn⟩ := Option.isSome_iff_exists.mp hp
  exact ⟨_, Tree.metadata_of_some hn⟩

/-! ### The first layer that has the path -/

theorem firstWithEntry_append {above : List σ} {l : σ} (below : List σ)
    (habove : ∀ m ∈ above, (symlinkMetadata m p).isSome = false)
    (hl : (symlinkMetadata l p).isSome) (i : Nat) :
    firstWithEntry p i (above ++ l :: below) = some (i + above.length) := by
  induction above generalizing i with
  | nil =>
    rw [List.nil_append, firstWithEntry, if_pos hl]
    rfl
  | cons m above ih =>
    obtain ⟨hm, habove⟩ := List.forall_mem_cons.mp habove
    rw [List.cons_append, firstWithEntry, hm, if_neg Bool.false_ne_true, ih habove,
      List.length_cons, Nat.add_assoc, Nat.add_comm 1]

theorem firstExisting_append {above below : List σ} {l : σ}
    (habove : ∀ m ∈ above, existsAt m p = .ok false) (hl : existsAt l p = .ok true) (i : Nat) :
    firstExisting p i (above ++ l :: below) = some (i + above.length) := by
  induction above generalizing i with
  | nil =>
    rw [List.nil_append, firstExisting, found, hl, unwrapOr_ok, if_pos rfl]
    rfl
  | cons m above ih =>
    obtain ⟨hm, habove⟩ := List.forall_mem_cons.mp habove
    rw [List.cons_append, firstExisting, found, hm, unwrapOr_ok, if_neg Bool.false_ne_true,
      ih habove, List.length_cons, Nat.add_assoc, Nat.add_comm 1]

/-- The layer that `resolve` found has the path. -/
theorem layerMetadata_index (h : resolve p fs = .ok (some r)) (hupper : LinkFree fs.upper)
    (hlower : ∀ l ∈ fs.lower, LinkFree l) : (layerMetadata fs p r.index).isSome := by
  obtain ⟨-, ⟨rfl, hthere⟩ | ⟨-, above, l, below, heq, rfl, hl, -⟩⟩ := resolve_eq_some h
  · exact hupper.isSome_eq hthere
  · have hget : fs.lower[above.length]? = some l := by simp [heq]
    rw [Resolved.index, layerMetadata, hget]
    exact (hlower l (by simp [heq])).isSome_eq hl

/-- No earlier layer has it. -/
theorem layerMetadata_before (h : resolve p fs = .ok (some r)) (hupper : LinkFree fs.upper)
    (hlower : ∀ l ∈ fs.lower, LinkFree l) {j : Nat} (hj : j < r.index) :
    layerMetadata fs p j = none := by
  obtain ⟨-, ⟨rfl, -⟩ | ⟨hnot, above, l, below, heq, rfl, -, habove⟩⟩ := resolve_eq_some h
  · exact absurd hj (Nat.not_lt_zero j)
  · rw [← Option.isNone_iff_eq_none, ← Option.isSome_eq_false_iff]
    cases j with
    | zero => exact hupper.isSome_eq hnot
    | succ j =>
      have hlt : j < above.length := Nat.lt_of_succ_lt_succ hj
      have hmem : above[j] ∈ above := List.getElem_mem hlt
      have hget : fs.lower[j]? = some above[j] := by
        rw [heq, List.getElem?_append_left hlt, List.getElem?_eq_getElem hlt]
      rw [layerMetadata, hget]
      exact (hlower _ (by simp [heq, hmem])).isSome_eq (habove _ hmem)

/-- The side-channel reports the layer that `resolve` found. -/
theorem physicalForWithLayer_eq (h : resolve p fs = .ok (some r)) (hupper : LinkFree fs.upper)
    (hlower : ∀ l ∈ fs.lower, LinkFree l) : physicalForWithLayer p fs = some r.index := by
  obtain ⟨hmark, hcases⟩ := resolve_eq_some h
  have hnomark : whiteoutInUpper p fs.upper = false := by
    rw [Bool.eq_false_iff, Ne, whiteoutInUpper_iff, hupper.isSome_eq hmark]
    simp
  rw [physicalForWithLayer, hnomark, if_neg Bool.false_ne_true]
  obtain ⟨rfl, hthere⟩ | ⟨hnot, above, l, below, heq, rfl, hl, habove⟩ := hcases
  · rw [hupper.isSome_eq hthere, if_pos rfl]
    rfl
  · have hfirst := firstWithEntry_append below
      (fun m hm => (hlower m (by simp [heq, hm])).isSome_eq (habove m hm))
      ((hlower l (by simp [heq])).isSome_eq hl) 1
    rw [hupper.isSome_eq hnot, if_neg Bool.false_ne_true, heq, hfirst, Nat.add_comm]
    rfl

theorem statLayer_eq (h : resolve p fs = .ok (some r)) : statLayer p fs = some r.index := by
  obtain ⟨-, ⟨rfl, hthere⟩ | ⟨hnot, above, l, below, heq, rfl, hl, habove⟩⟩ := resolve_eq_some h
  · rw [statLayer, found, hthere, unwrapOr_ok, if_pos rfl]
    rfl
  · rw [statLayer, found, hnot, unwrapOr_ok, if_neg Bool.false_ne_true, heq,
      firstExisting_append habove hl, Nat.add_comm]
    rfl

theorem resolved_metadata_ok (h : resolve p fs = .ok (some r)) (hupper : LinkFree fs.upper)
    (hlower : ∀ l ∈ fs.lower, LinkFree l) : ∃ md, r.metadata p fs = .ok md := by
  obtain ⟨-, ⟨rfl, hthere⟩ | ⟨-, above, l, below, heq, rfl, hl, -⟩⟩ := resolve_eq_some h
  · exact hupper.metadata_ok p (hupper.isSome_eq hthere)
  · have hlink := hlower l (by simp [heq])
    exact hlink.metadata_ok p (hlink.isSome_eq hl)

theorem overlayStat_eq (h : resolve p fs = .ok (some r)) (hupper : LinkFree fs.upper)
    (hlower : ∀ l ∈ fs.lower, LinkFree l) :
    ∃ md : VfsMetadata, overlayStat p fs = .ok (.entry md.fileType md.len (some r.index)) := by
  obtain ⟨md, hmd⟩ := resolved_metadata_ok h hupper hlower
  have hexists : FileSystem.existsAt fs p = .ok true := by
    change LayerFS.existsAt p fs = _
    rw [LayerFS.existsAt, h]
    rfl
  have hmeta : FileSystem.metadata fs p = .ok md := by
    change LayerFS.metadata p fs = _
    rw [LayerFS.metadata, h]
    exact hmd
  refine ⟨md, ?_⟩
  rw [overlayStat, hexists, hmeta, statLayer_eq h]
  rfl

/-! ### Passthrough -/

variable {s : Fuse υ ℓ} {ino : Ino}

/-- For a verified layer no backing file is registered. -/
theorem openBacking_verified {layer : Nat} (hlayer : physicalForWithLayer p s.root = some layer)
    (hverified : s.verifiedLayers.getD layer false = true) (backed : Bool) :
    Triple (· = s) (openBacking ino p backed) (fun backing _ => backing = none)
      (fun _ => True) := by
  rintro _ rfl
  rw [run_openBacking, hlayer]
  dsimp only
  rw [if_pos hverified]
  rfl

/-- A read-only open of a path in a verified layer is not passed through. -/
theorem openInode_verified (hino : s.inodes ino = some p) {layer : Nat}
    (hlayer : physicalForWithLayer p s.root = some layer)
    (hverified : s.verifiedLayers.getD layer false = true) {flags : OpenFlags}
    (hflags : flags.writable = false) (backed : Bool) :
    Triple (· = s) (openInode ino flags backed)
      (fun reply _ => ∀ fh backing, reply ≠ .openedPassthrough fh backing) (fun _ => True) := by
  refine pathOf_from trivial fun path hpath => ?_
  obtain rfl := Option.some.inj (hino.symm.trans hpath)
  refine Triple.bind (R := fun _ s' => s'.root = s.root ∧ s'.verifiedLayers = s.verifiedLayers)
    (fun _ hs => by rw [hs]; exact ⟨rfl, rfl⟩) fun fh => ?_
  rw [hflags, if_neg Bool.false_ne_true]
  refine Triple.of_forall fun s' hs' => ?_
  have hlayer' : physicalForWithLayer p s'.root = some layer := by rw [hs'.1, hlayer]
  refine Triple.bind (openBacking_verified hlayer' ?_ backed) fun backing => ?_
  · rw [hs'.2, hverified]
  · -- what is left is to open the file through the overlay
    refine Triple.of_forall fun _ hnone => ?_
    rw [hnone]
    exact Triple.bind Triple.true fun _ => Triple.bind Triple.true fun _ =>
      Triple.bind Triple.true fun _ => Triple.pure _ fun _ _ _ _ h => nomatch h

/-! ### The main result -/

/-- Over directories without symbolic links: where `resolve` finds a path in a layer,
the side-channel reports that layer, it is the first one that has the path and the one
that `overlay stat` prints, and a read-only open of the path is passed through only if
that layer is not verified. -/
theorem resolve_names_layer (p : Path) (fs : LayerFS υ ℓ) (hupper : LinkFree fs.upper)
    (hlower : ∀ l ∈ fs.lower, LinkFree l) (r : Resolved ℓ) (h : resolve p fs = .ok (some r)) :
    physicalForWithLayer p fs = some r.index ∧
    (layerMetadata fs p r.index).isSome ∧ (∀ j < r.index, layerMetadata fs p j = none) ∧
    (∃ fileType size, overlayStat p fs = .ok (.entry fileType size (some r.index))) ∧
    ∀ (s : Fuse υ ℓ) (ino : Ino) (flags : OpenFlags) (backed : Bool) (fh : Fh)
      (backing : BackingId), s.root = fs → s.inodes ino = some p → flags.writable = false →
      respond s (.openInode ino flags backed) = .ok (.openedPassthrough fh backing) →
      s.verifiedLayers.getD r.index false = false := by
  have hlayer := physicalForWithLayer_eq h hupper hlower
  refine ⟨hlayer, layerMetadata_index h hupper hlower,
    fun j => layerMetadata_before h hupper hlower, ?_, ?_⟩
  · obtain ⟨md, hmd⟩ := overlayStat_eq h hupper hlower
    exact ⟨_, _, hmd⟩
  · rintro s ino flags backed fh backing rfl hino hflags hok
    rw [Bool.eq_false_iff]
    intro hverified
    exact next_of_ok (openInode_verified hino hlayer hverified hflags backed) hok fh backing rfl

/-- The upper layer and the layer below it hide `motd` of the image, and nothing else. -/
def motdHidden : Stack :=
  ⟨Tree.ofEntries [(["etc".toList], .dir), (["etc".toList, ".wh.motd".toList], .file [])],
    [Tree.ofEntries [(["etc".toList], .dir), (["etc".toList, ".wh.motd".toList], .file [])],
      Tree.ofEntries [(["etc".toList], .dir), (["etc".toList, "hosts".toList], .file [1]),
        (["etc".toList, "motd".toList], .file [2])]]⟩

/-- The daemon over them after lookups of `etc` and `etc/hosts`, which have inodes 2 and 3. -/
def hostsLookedUp : Fuse Tree Tree :=
  run (new motdHidden [false, true, false] 8) [.lookup rootIno "etc".toList, .lookup 2 "hosts".toList]

theorem resolve_names_layer_hosts :
    resolve ["etc".toList, "motd".toList] motdHidden = .ok none ∧
    physicalForWithLayer ["etc".toList, "hosts".toList] motdHidden = some 2 ∧
    (layerMetadata motdHidden ["etc".toList, "hosts".toList] 2).isSome ∧
    (∀ j < 2, layerMetadata motdHidden ["etc".toList, "hosts".toList] j = none) ∧
    (∃ fileType size, overlayStat ["etc".toList, "hosts".toList] motdHidden =
      .ok (.entry fileType size (some 2))) ∧
    respond hostsLookedUp (.openInode 3 ⟨.readOnly, false, false⟩ true) =
      .ok (.openedPassthrough 1 ⟨0, 2, ["etc".toList, "hosts".toList]⟩) ∧
    hostsLookedUp.verifiedLayers.getD 2 false = false := by
  obtain ⟨hlayer, hthere, hbefore, hstat, hopen⟩ := resolve_names_layer
    ["etc".toList, "hosts".toList] motdHidden (Tree.linkFree _) (fun _ _ => Tree.linkFree _)
    (.lower 1 _) rfl
  have hpassed : respond hostsLookedUp (.openInode 3 ⟨.readOnly, false, false⟩ true) =
      .ok (.openedPassthrough 1 ⟨0, 2, ["etc".toList, "hosts".toList]⟩) := by decide
  exact ⟨rfl, hlayer, hthere, hbefore, hstat, hpassed,
    hopen hostsLookedUp 3 _ _ _ _ rfl rfl rfl hpassed⟩

end Rspacefs
