import Rspacefs.Core.Cache
import Rspacefs.Core.Pointwise
import Rspacefs.Vfs.Physical

/-!
# The physical side-channel of the FUSE adapter

`physical_for_with_layer` of `rspacefs-fuse/src/fs.rs` finds the file on disk
behind a path: it honours the whiteout of the path in the upper layer and then
takes the first layer with an entry there. `LayerFS::resolve` also honours
whiteouts in lower layers and opaque markers, and does not see a dangling link. So
the side-channel reports paths the overlay does not have.

## Main definitions

* `physicalForWithLayer` — the source's function
* `Shows` — what makes `resolve` find a path, as a condition on the layers

## Main results

* `resolve_isSome_iff` — `resolve` finds a path exactly when some layer shows it
* `physical_implies_resolve_iff` — when the two agree on a path
-/

namespace Rspacefs

open Lib LayerFS

variable {υ ℓ σ : Type} [PhysicalFS υ] [PhysicalFS ℓ]

/-- Split a path into parent and name; the root has no such pair. -/
def splitParentName (path : Path) : Option (Path × Name) :=
  if path = [] then none else some (splitPath path)

/-- The first of the layers, numbered from `i` on, with an entry at `path`. -/
def firstWithEntry [PhysicalFS σ] (path : Path) : Nat → List σ → Option Nat
  | _, [] => none
  | i, layer :: rest =>
    if (symlinkMetadata layer path).isSome then some i else firstWithEntry path (i + 1) rest

/-- Upper-layer whiteout: lower entries are masked. -/
def whiteoutInUpper (path : Path) (upper : υ) : Bool :=
  match splitParentName path with
  | some (parent, name) => (symlinkMetadata upper (parent ++ [whiteoutPrefix ++ name])).isSome
  | none => false

/-- Find the physical file backing an overlay path: the index of its layer, where
0 is the upper layer. Honours entry-level whiteouts in the upper layer. -/
def physicalForWithLayer (path : Path) (fs : LayerFS υ ℓ) : Option Nat :=
  if whiteoutInUpper path fs.upper then none
  else if (symlinkMetadata fs.upper path).isSome then some 0
  else firstWithEntry path 1 fs.lower

/-! ### What the side-channel reports -/

variable {p : Path} {fs : LayerFS υ ℓ}

/-- Some layer has an entry at `p`, be it a dangling link. -/
def HasEntry (p : Path) (fs : LayerFS υ ℓ) : Prop :=
  (symlinkMetadata fs.upper p).isSome ∨ ∃ l ∈ fs.lower, (symlinkMetadata l p).isSome

theorem firstWithEntry_isSome_iff [PhysicalFS σ] (layers : List σ) (i : Nat) :
    (firstWithEntry p i layers).isSome ↔ ∃ l ∈ layers, (symlinkMetadata l p).isSome := by
  induction layers generalizing i with
  | nil => simp [firstWithEntry]
  | cons l layers ih =>
    rw [firstWithEntry, List.exists_mem_cons_iff]
    split
    · rename_i hentry
      simp [hentry]
    · rename_i hentry
      rw [ih, or_iff_right hentry]

theorem whiteoutInUpper_iff {u : υ} :
    whiteoutInUpper p u = true ↔ p ≠ [] ∧ (symlinkMetadata u (whiteoutPath p)).isSome := by
  by_cases hp : p = []
  · simp [whiteoutInUpper, splitParentName, hp]
  · simp [whiteoutInUpper, splitParentName, hp, whiteoutPath]

theorem physicalForWithLayer_isSome_iff :
    (physicalForWithLayer p fs).isSome ↔
      ¬ (p ≠ [] ∧ (symlinkMetadata fs.upper (whiteoutPath p)).isSome) ∧ HasEntry p fs := by
  rw [physicalForWithLayer, HasEntry, ← firstWithEntry_isSome_iff fs.lower 1,
    ← whiteoutInUpper_iff]
  split
  · rename_i hmark
    simp [hmark]
  · rename_i hmark
    split
    · rename_i hentry
      simp [hmark, hentry]
    · rename_i hentry
      simp [hmark, hentry]

/-! ### What the overlay finds -/

/-- `Path::exists`, following links. -/
def found [PhysicalFS σ] (u : σ) (p : Path) : Bool := unwrapOr false (existsAt u p)

/-- An opaque marker in the parent of `p` or above, following links. -/
def opaqueFound [PhysicalFS σ] (u : σ) (p : Path) : Bool :=
  p.dropLast.inits.any fun q => found u (opaquePath q)

/-- A lower layer shows `p`: `p` is found there by following links, no layer down
to it whites `p` out, and no layer above it is opaque above `p`. -/
def LowerShows (p : Path) (lower : List ℓ) : Prop :=
  ∃ above l below, lower = above ++ l :: below ∧ found l p = true ∧
    (∀ m ∈ above, opaqueFound m p = false) ∧
    ∀ m ∈ above ++ [l], (symlinkMetadata m (whiteoutPath p)).isSome = false

/-- Some layer shows `p`. -/
def Shows (p : Path) (fs : LayerFS υ ℓ) : Prop :=
  found fs.upper (whiteoutPath p) = false ∧
    (found fs.upper p = true ∨ opaqueFound fs.upper p = false ∧ LowerShows p fs.lower)

theorem lowerShows_cons {l : ℓ} {lower : List ℓ} :
    LowerShows p (l :: lower) ↔ (symlinkMetadata l (whiteoutPath p)).isSome = false ∧
      (found l p = true ∨ opaqueFound l p = false ∧ LowerShows p lower) := by
  constructor
  · rintro ⟨above, m, below, heq, hfound, hopq, hmark⟩
    cases above with
    | nil =>
      obtain ⟨rfl, rfl⟩ := List.cons.inj heq
      exact ⟨hmark l (by simp), Or.inl hfound⟩
    | cons a above =>
      obtain ⟨rfl, rfl⟩ := List.cons.inj heq
      exact ⟨hmark l (by simp), Or.inr ⟨hopq l (by simp), above, m, below, rfl, hfound,
        fun x hx => hopq x (by simp [hx]), fun x hx => hmark x (List.mem_cons_of_mem _ hx)⟩⟩
  · rintro ⟨hl, hfound | ⟨hopql, above, m, below, rfl, hfound, hopq, hmark⟩⟩
    · exact ⟨[], l, lower, rfl, hfound, by simp, by simpa using hl⟩
    · exact ⟨l :: above, m, below, rfl, hfound, List.forall_mem_cons.mpr ⟨hopql, hopq⟩,
        List.forall_mem_cons.mpr ⟨hl, hmark⟩⟩

variable [LawfulPhysicalFS υ] [LawfulPhysicalFS ℓ]

theorem existsAt_found [PhysicalFS σ] [LawfulPhysicalFS σ] (u : σ) (p : Path) :
    existsAt u p = .ok (found u p) := by
  obtain ⟨b, hb⟩ := LawfulPhysicalFS.existsAt_ok u p
  rw [found, hb, unwrapOr_ok]

theorem opaqueWalk_found [PhysicalFS σ] [LawfulPhysicalFS σ] (u : σ) (up : List Name) :
    opaqueWalk u up = .ok (up.reverse.inits.any fun q => found u (opaquePath q)) := by
  induction up with
  | nil => simp [opaqueWalk, existsAt_found]
  | cons n up ih =>
    rw [opaqueWalk, existsAt_found, ih]
    cases h : found u (opaquePath (n :: up).reverse) <;>
      simp_all [List.inits_append, bind, Except.bind, pure, Except.pure]

/-- In a lower layer whiteouts are looked up in the listing: links count too. -/
theorem mem_collectWhiteouts_iff (l : ℓ) (d : Path) (n : Name) :
    n ∈ collectWhiteouts l d ↔
      (symlinkMetadata l (d ++ [whiteoutPrefix ++ n])).isSome ∧
        whiteoutPrefix ++ n ≠ opaqueWhiteout := by
  have hlist : ∀ names, readDir l d = .ok names →
      (n ∈ names.filterMap (fun m => if m = opaqueWhiteout then none else stripWhiteout m) ↔
        (symlinkMetadata l (d ++ [whiteoutPrefix ++ n])).isSome ∧
          whiteoutPrefix ++ n ≠ opaqueWhiteout) := by
    intro names hnames
    rw [List.mem_filterMap, ← LawfulPhysicalFS.mem_readDir l d names _ hnames]
    constructor
    · rintro ⟨m, hm, hn⟩
      split at hn
      · cases hn
      · rename_i hopq
        obtain rfl := stripWhiteout_eq_some.mp hn
        exact ⟨hm, hopq⟩
    · rintro ⟨hm, hopq⟩
      exact ⟨_, hm, by rw [if_neg hopq, stripWhiteout_eq_some]⟩
  unfold collectWhiteouts
  by_cases hentry : (symlinkMetadata l (d ++ [whiteoutPrefix ++ n])).isSome
  · obtain ⟨hexists, names, hnames⟩ :=
      LawfulPhysicalFS.readDir_of_symlinkMetadata l d _ hentry
    rw [hexists, hnames]
    exact hlist names hnames
  · -- without the entry, whatever is listed does not have it
    rw [existsAt_found]
    cases found l d with
    | false => simp [hentry]
    | true =>
      cases hnames : readDir l d with
      | error e => simp [hentry]
      | ok names => simpa [hnames] using hlist names hnames

theorem lowerHasWhiteout_found (l : ℓ) (hp : ¬ IsMarker (splitPath p).2) :
    lowerHasWhiteout l (splitPath p).1 (splitPath p).2 =
      .ok (symlinkMetadata l (whiteoutPath p)).isSome := by
  rw [lowerHasWhiteout, Except.ok.injEq]
  have hopq := whiteout_ne_opaqueWhiteout hp
  rw [Bool.eq_iff_iff, decide_eq_true_iff, mem_collectWhiteouts_iff]
  exact and_iff_left hopq

theorem resolveLower_isSome_iff (hp : ¬ IsMarker (splitPath p).2) (lower : List ℓ) (i : Nat) :
    ∃ r, resolveLower p i lower = .ok r ∧ (r.isSome ↔ LowerShows p lower) := by
  induction lower generalizing i with
  | nil => exact ⟨none, rfl, by simp [LowerShows]⟩
  | cons l lower ih =>
    -- the three probes of the loop body, in its order
    have hmark := lowerHasWhiteout_found l hp
    have hfound := existsAt_found l p
    have hopq : lowerIsOpaqueAbove l (splitPath p).1 = .ok (opaqueFound l p) := by
      rw [lowerIsOpaqueAbove, lowerOpaqueWalk_eq_any, List.reverse_reverse]
      rfl
    obtain ⟨r, hr, hiff⟩ := ih (i + 1)
    have hunfold : resolveLower p i (l :: lower) = (do
        if ← lowerHasWhiteout l (splitPath p).1 (splitPath p).2 then return none
        if ← FileSystem.existsAt l p then return some (.lower i l)
        if ← lowerIsOpaqueAbove l (splitPath p).1 then return none
        resolveLower p (i + 1) lower) := rfl
    rw [lowerShows_cons, hunfold, hmark, hfound, hopq, hr]
    cases (symlinkMetadata l (whiteoutPath p)).isSome with
    | true => exact ⟨none, rfl, by simp⟩
    | false =>
      cases found l p with
      | true => exact ⟨some (.lower i l), rfl, by simp⟩
      | false =>
        cases opaqueFound l p with
        | true => exact ⟨none, rfl, by simp⟩
        | false => exact ⟨r, rfl, by simpa using hiff⟩

/-- `resolve` does not fail, and finds `p` exactly when some layer shows it. -/
theorem resolve_isSome_iff (hp : NoMarker p) (fs : LayerFS υ ℓ) :
    ∃ r, resolve p fs = .ok r ∧ (r.isSome ↔ Shows p fs) := by
  obtain ⟨r, hr, hiff⟩ := resolveLower_isSome_iff hp.not_isMarker_name fs.lower 0
  have hopq : isOpaqueAbove p fs.upper = .ok (opaqueFound fs.upper p) := by
    rw [isOpaqueAbove, opaqueWalk_found, List.reverse_reverse]
    rfl
  rw [resolve, isWhiteout, existsAt_found, existsAt_found, hopq, hr, Shows]
  cases found fs.upper (whiteoutPath p) with
  | true => exact ⟨none, rfl, by simp⟩
  | false =>
    cases found fs.upper p with
    | true => exact ⟨some .upper, rfl, by simp⟩
    | false =>
      cases opaqueFound fs.upper p with
      | true => exact ⟨none, rfl, by simp⟩
      | false => exact ⟨r, rfl, by simpa using hiff⟩

/-! ### When the two agree -/

/-- What the side-channel reports the overlay has too, exactly when the upper layer
whites the path out, or no layer has an entry, or some layer shows the path. -/
theorem physical_implies_resolve_iff (p : Path) (hp : NoMarker p) (fs : LayerFS υ ℓ) :
    ((physicalForWithLayer p fs).isSome → ∃ r, resolve p fs = .ok (some r)) ↔
      (p ≠ [] ∧ (symlinkMetadata fs.upper (whiteoutPath p)).isSome) ∨ ¬ HasEntry p fs ∨
        Shows p fs := by
  obtain ⟨r, hr, hiff⟩ := resolve_isSome_iff hp fs
  have hresolve : (∃ x, resolve p fs = .ok (some x)) ↔ Shows p fs := by
    rw [← hiff, hr, Option.isSome_iff_exists]
    simp
  rw [hresolve, physicalForWithLayer_isSome_iff]
  tauto

/-- An image of two layers, the upper one of which deletes a file of the lower. -/
def deletedStack : LayerFS Tree Tree :=
  ⟨Tree.empty, [Tree.ofEntries [([".wh.x".toList], .file [])],
    Tree.ofEntries [(["x".toList], .file [1])]]⟩

/-- A file deleted by an image layer is still reported. -/
theorem ghost_deletedStack :
    NoMarker ["x".toList] ∧ physicalForWithLayer ["x".toList] deletedStack = some 2 ∧
      resolve ["x".toList] deletedStack = .ok none := by
  have hplain : PlainPath ["x".toList] := by decide
  exact ⟨hplain.noMarker, by decide, rfl⟩

theorem physical_implies_resolve_iff_hosts :
    (physicalForWithLayer ["etc".toList, "hosts".toList] hostsStack).isSome ∧
      ∃ r, resolve ["etc".toList, "hosts".toList] hostsStack = .ok (some r) := by
  have hplain : PlainPath ["etc".toList, "hosts".toList] := by decide
  refine ⟨by decide, (physical_implies_resolve_iff _ hplain.noMarker hostsStack).mpr
    (Or.inr (Or.inr ⟨by decide, Or.inr ⟨by decide, ?_⟩⟩)) (by decide)⟩
  exact ⟨[], _, [], rfl, by decide, by simp, by simp; decide⟩

end Rspacefs
