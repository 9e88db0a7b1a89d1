import Rspacefs.Fuse.Touch
import Rspacefs.Vfs.DiskLinks

/-!
# Renaming a symbolic link

`rename` asks the overlay what it renames, and the overlay follows links: a link is copied as
what it leads to, a file or a directory, and what is deleted afterwards is deleted through it.
Copying up recreates a link as a link; a rename never makes one. Where the link leads to a
directory of the upper layer, that directory is emptied before the request fails. A link can be
at the new name afterwards only if a layer had one there before, which a whiteout hid.

## Main definitions

* `ShownEntry` — what a client finds at a path, links not followed
* `LinkRename` — a link is to be renamed to a free name in a directory
* `MovesLink` — what the rename is to do
* `HidesLink` — there is a link at a path, and a whiteout over it

## Main results

* `step_straight` — a request that plants no link makes no straight path crooked
* `MovesLink.hidesLink` — a rename moves a link at most to a name that hides one
-/

namespace Rspacefs.Fuse

open Lib LayerFS

variable {υ ℓ : Type} [PhysicalFS υ] [PhysicalFS ℓ] {s : Fuse υ ℓ} {fs : LayerFS υ ℓ}
  {p src dst : Path} {parent newparent : Ino} {name newname : Name} {target : Target}

/-- What a client finds at a path, links not followed. -/
inductive ShownEntry
  | file (content : VfsResult Bytes)
  | directory
  | link (target : Option Target)
  deriving DecidableEq

/-- The layer directory with the given index, asked where a link leads. -/
def layerReadLink (fs : LayerFS υ ℓ) (path : Path) : Nat → Option Target
  | 0 => readLink fs.upper path
  | i + 1 => fs.lower[i]?.bind fun layer => readLink layer path

/-- What the layer with the given index shows at a path. -/
def shownBy (fs : LayerFS υ ℓ) (path : Path) (i : Nat) : Option ShownEntry :=
  (layerMetadata fs path i).map fun m => match m.kind with
    | .regularFile => .file (contentAt fs path)
    | .directory => .directory
    | .symlink => .link (layerReadLink fs path i)

/-- What the overlay shows at a path. -/
def shown (fs : LayerFS υ ℓ) (path : Path) : Option ShownEntry :=
  (physicalForWithLayer path fs).bind (shownBy fs path)

/-- What is above the path is shown as directories. -/
def Reached (fs : LayerFS υ ℓ) (p : Path) : Prop :=
  ∀ q, q <+: p.dropLast → q ≠ [] → shown fs q = some .directory

/-- A link is to be renamed to a free name in a directory. -/
structure LinkRename (s : Fuse υ ℓ) (parent : Ino) (name : Name) (newparent : Ino)
    (newname : Name) (src dst : Path) (target : Target) : Prop where
  from_src : childPath s parent name = some src
  to_dst : childPath s newparent newname = some dst
  link : shown s.root src = some (.link (some target))
  free : shown s.root dst = none
  directory : Reached s.root dst

/-- The request is answered with success, the link is at the new name and not at the old, and
everything else is as it was. -/
structure MovesLink (s : Fuse υ ℓ) (r : Request) (src dst : Path) (target : Target) : Prop where
  reply : respond s r = .ok .ok
  there : shown (next s r).root dst = some (.link (some target))
  gone : shown (next s r).root src = none
  others : ∀ p, PlainPath p → Reached s.root p → p ≠ src → p ≠ dst →
    shown (next s r).root p = shown s.root p

/-- A layer has a link at the path, and the whiteout of the upper layer hides it. -/
structure HidesLink (fs : LayerFS υ ℓ) (p : Path) : Prop where
  link : ∃ i, (layerMetadata fs p i).map (·.kind) = some .symlink
  hidden : (symlinkMetadata fs.upper (whiteoutPath p)).isSome

/-! ### What shows as a directory, and what as a link -/

theorem exists_of_shown {x : ShownEntry} (h : shown fs p = some x) :
    ∃ i m, physicalForWithLayer p fs = some i ∧ layerMetadata fs p i = some m ∧
      shownBy fs p i = some x := by
  obtain ⟨i, hi, hx⟩ := Option.bind_eq_some_iff.mp h
  obtain ⟨m, hm, -⟩ := Option.map_eq_some_iff.mp hx
  exact ⟨i, m, hi, hm, hx⟩

theorem kind_of_shownBy_link {i : Nat} {m : LinkMetadata} {t : Option Target}
    (hm : layerMetadata fs p i = some m) (h : shownBy fs p i = some (.link t)) :
    m.kind = .symlink := by
  rw [shownBy, hm, Option.map_some, Option.some.injEq] at h
  split at h
  · cases h
  · cases h
  · assumption

theorem kind_of_shownBy_directory {i : Nat} {m : LinkMetadata}
    (hm : layerMetadata fs p i = some m) (h : shownBy fs p i = some .directory) :
    m.kind = .directory := by
  rw [shownBy, hm, Option.map_some, Option.some.injEq] at h
  split at h
  · cases h
  · assumption
  · cases h

/-- The upper layer is asked first. -/
theorem upper_eq_none_of_lower {i : Nat} (h : physicalForWithLayer p fs = some (i + 1)) :
    symlinkMetadata fs.upper p = none := by
  unfold physicalForWithLayer at h
  split at h
  · cases h
  · split at h
    · cases h
    · rename_i hnone
      rwa [Option.not_isSome_iff_eq_none] at hnone

/-- What shows as a directory is no link of the upper layer. -/
theorem kindAt_upper_of_directory (h : shown fs p = some .directory) :
    kindAt fs.upper p ≠ some .symlink := by
  obtain ⟨i, m, hi, hm, hx⟩ := exists_of_shown h
  have hkind := kind_of_shownBy_directory hm hx
  cases i with
  | zero =>
    rw [kindAt, show symlinkMetadata fs.upper p = some m from hm, Option.map_some, hkind]
    simp
  | succ i =>
    rw [kindAt, upper_eq_none_of_lower hi]
    simp

/-- Below directories a path is straight in the upper layer, unless it is a link itself. -/
theorem Reached.straight (h : Reached fs p) (hp : kindAt fs.upper p ≠ some .symlink) :
    Straight fs.upper p := by
  intro q hq hne
  by_cases hqp : q = p
  · exact hqp ▸ hp
  · exact kindAt_upper_of_directory (h q (prefix_dropLast_of_ne hq hqp) hne)

/-! ### Requests that plant no link -/

/-- Straight paths survive whatever a request calls, if it plants no link. -/
theorem survives_straight [StraightPhysicalFS υ] {r : Request} (y : Path)
    (h : ¬ PlantsLink s r) :
    Survives (fun u : υ => Straight u y) (fun u => Straight u y) s r := by
  have hname : ∀ x, KeptName (fun u : υ => Straight u y) x := fun x =>
    (StraightPhysicalFS.kept x y).toKeptName
  have hnear : ∀ x, KeptNear (fun u : υ => Straight u y) x := fun x =>
    ⟨StraightPhysicalFS.kept _ y, fun q _ => hname q⟩
  constructor
  · intro u hu
    exact hu
  · intro x _
    exact hnear x
  · intro x _
    exact StraightPhysicalFS.kept x y
  · intro x _
    exact hname _
  · intro _ x _
    exact ⟨fun q _ => ⟨hnear _, StraightPhysicalFS.kept _ y⟩, fun q m _ _ => hname _⟩
  · intro hplants
    exact absurd hplants h

/-- A request that plants no link makes no straight path crooked. -/
theorem step_straight [StraightPhysicalFS υ] {r : Request} {y : Path} (h : ¬ PlantsLink s r)
    (hy : Straight s.root.upper y) :
    Straight (next s r).root.upper y ∧ (next s r).root.lower = s.root.lower :=
  (step_stacked (survives_straight y h) hy).finalState rfl

/-! ### No rename makes a link -/

/-- A rename changes no lower layer. -/
theorem lower_next_rename (s : Fuse υ ℓ) (parent newparent : Ino) (name newname : Name) :
    (next s (.rename parent name newparent newname)).root.lower = s.root.lower :=
  (rename_keeps parent name newparent newname : Keeps lowers _).finalState s

theorem layerMetadata_lower_congr {fs' : LayerFS υ ℓ} (h : fs'.lower = fs.lower) (i : Nat) :
    layerMetadata fs' p (i + 1) = layerMetadata fs p (i + 1) := by
  rw [layerMetadata, layerMetadata, h]

theorem isSome_of_firstWithEntry {layers : List ℓ} {i j : Nat}
    (h : firstWithEntry p i layers = some j) :
    ∃ k, j = i + k ∧ (layers[k]?.bind fun layer => symlinkMetadata layer p).isSome := by
  induction layers generalizing i with
  | nil => cases h
  | cons layer rest ih =>
    rw [firstWithEntry] at h
    split at h
    · rename_i hentry
      cases h
      exact ⟨0, rfl, hentry⟩
    · obtain ⟨k, rfl, hk⟩ := ih h
      exact ⟨k + 1, by omega, hk⟩

/-- The layer that the side-channel names has an entry. -/
theorem isSome_layerMetadata {i : Nat} (h : physicalForWithLayer p fs = some i) :
    (layerMetadata fs p i).isSome := by
  unfold physicalForWithLayer at h
  split at h
  · cases h
  · split at h
    · rename_i hentry
      cases h
      exact hentry
    · obtain ⟨k, rfl, hk⟩ := isSome_of_firstWithEntry h
      rw [Nat.add_comm]
      exact hk

theorem hasEntry_of_layerMetadata {i : Nat} (h : (layerMetadata fs p i).isSome) :
    HasEntry p fs := by
  cases i with
  | zero => exact Or.inl h
  | succ i =>
    rw [layerMetadata] at h
    cases hl : fs.lower[i]? with
    | none =>
      rw [hl] at h
      cases h
    | some l =>
      rw [hl] at h
      exact Or.inr ⟨l, List.mem_of_getElem? hl, h⟩

/-- What a layer has and no client finds is behind a whiteout. -/
theorem hidden_of_shown_none {i : Nat} (h : shown fs p = none)
    (hentry : (layerMetadata fs p i).isSome) :
    (symlinkMetadata fs.upper (whiteoutPath p)).isSome := by
  by_contra hhidden
  have hsome := physicalForWithLayer_isSome_iff.mpr
    ⟨fun hmark => hhidden hmark.2, hasEntry_of_layerMetadata hentry⟩
  obtain ⟨j, hj⟩ := Option.isSome_iff_exists.mp hsome
  obtain ⟨m, hm⟩ := Option.isSome_iff_exists.mp (isSome_layerMetadata hj)
  rw [shown, hj, Option.bind_some, shownBy, hm] at h
  cases h

/-- A rename moves a link at most to a name that hides one. -/
theorem MovesLink.hidesLink [StraightPhysicalFS υ]
    (hmoves : MovesLink s (.rename parent name newparent newname) src dst target)
    (h : LinkRename s parent name newparent newname src dst target) : HidesLink s.root dst := by
  obtain ⟨i, m, hi, hm, hx⟩ := exists_of_shown hmoves.there
  have hkind := kind_of_shownBy_link hm hx
  have hlink : (layerMetadata s.root dst i).map (·.kind) = some .symlink := by
    cases i with
    | zero =>
      -- a link that was not there would have to be one that the rename made
      by_contra hbefore
      have hstraight := h.directory.straight hbefore
      have hafter := (step_straight (r := .rename parent name newparent newname) id hstraight).1
      apply hafter dst (List.prefix_refl dst) (childPath_ne_nil h.to_dst)
      rw [kindAt, show symlinkMetadata _ dst = some m from hm, Option.map_some, hkind]
    | succ i =>
      rw [layerMetadata_lower_congr (lower_next_rename s parent newparent name newname)] at hm
      rw [hm, Option.map_some, hkind]
  refine ⟨⟨i, hlink⟩, hidden_of_shown_none h.free (i := i) ?_⟩
  rw [← Option.isSome_map (f := (·.kind)), hlink]
  rfl

/-- A directory with a file in it, and a link `l` to the directory. -/
def linkToDirectory : Fuse DiskTree DiskTree :=
  new ⟨DiskTree.ofEntries [(["d".toList], .dir), (["d".toList, "f".toList], .file (some [1])),
    (["l".toList], .link "d".toList)], []⟩ [] 8

theorem linkRename_linkToDirectory :
    LinkRename linkToDirectory rootIno "l".toList rootIno "m".toList ["l".toList] ["m".toList]
      "d".toList := by
  constructor
  · rfl
  · rfl
  · decide
  · decide
  · intro q hq hne
    exact absurd (List.prefix_nil.mp hq) hne

/-- Renaming the link deletes the file in the directory it leads to. -/
theorem rename_empties_target :
    ¬ ∀ (s : Fuse DiskTree DiskTree) (parent newparent : Ino) (name newname : Name)
      (src dst : Path) (target : Target),
      LinkRename s parent name newparent newname src dst target →
        MovesLink s (.rename parent name newparent newname) src dst target := by
  intro h
  have hmoves := h linkToDirectory rootIno rootIno "l".toList "m".toList ["l".toList]
    ["m".toList] "d".toList linkRename_linkToDirectory
  have hreached : Reached linkToDirectory.root ["d".toList, "f".toList] := by
    intro q hq hne
    obtain rfl : q = ["d".toList] := by
      have hparent : q <+: [] ++ ["d".toList] := hq
      rcases List.prefix_concat_iff.mp hparent with hq | hq
      · exact hq
      · exact absurd (List.prefix_nil.mp hq) hne
    decide
  have hfile := hmoves.others ["d".toList, "f".toList] (by decide) hreached (by decide) (by decide)
  have hbefore : shown linkToDirectory.root ["d".toList, "f".toList] = some (.file (.ok [1])) := by
    decide
  have hafter : shown (next linkToDirectory (.rename rootIno "l".toList rootIno "m".toList)).root
      ["d".toList, "f".toList] = none := by
    decide +kernel
  rw [hbefore, hafter] at hfile
  cases hfile

end Rspacefs.Fuse
