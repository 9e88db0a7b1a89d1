import Mathlib.Data.List.Perm.Basic
import Rspacefs.Core.Layer
import Rspacefs.Vfs.Tree

/-!
# Upper layers with the same content

Two upper layers that answer alike, except perhaps for the order in which they enumerate a
directory, make the same merged view: resolution and the reading methods only ask the
layers, and a merged listing is sorted at its end.

## Main definitions

* `SameContent` — two layers answer alike

## Main results

* `SameContent.resolve`, `SameContent.metadata`, `SameContent.openFile` — lookups
* `SameContent.readDir` — listings
-/

namespace Rspacefs

open Lib LayerFS

/-- Two layers answer every question alike; a listing may come in another order. -/
structure SameContent {σ : Type} [FileSystem σ] (u u' : σ) : Prop where
  existsAt : ∀ p, existsAt u p = existsAt u' p
  metadata : ∀ p, metadata u p = metadata u' p
  openFile : ∀ p, openFile u p = openFile u' p
  readDir : ∀ p, Agree List.Perm (readDir u p) (readDir u' p)

namespace LayerFS.Listing

/-- The same listing so far, up to the order of the accumulators. -/
structure Perm (acc acc' : Listing) : Prop where
  entries : acc.entries.Perm acc'.entries
  seen : acc.seen.Perm acc'.seen
  whiteouts : acc.whiteouts.Perm acc'.whiteouts

/-- The name that a marker hides. -/
def hidden (name : Name) : Option Name :=
  if IsMarker name ∧ name ≠ opaqueWhiteout then some ((stripWhiteout name).getD name) else none

theorem foldl_addUpper (names : List Name) (acc : Listing) :
    names.foldl addUpper acc =
      ⟨acc.entries ++ names.filter fun n => ¬ IsMarker n,
        (names.filter fun n => ¬ IsMarker n).reverse ++ acc.seen,
        (names.filterMap hidden).reverse ++ acc.whiteouts⟩ := by
  induction names generalizing acc with
  | nil => simp
  | cons n names ih =>
    rw [List.foldl_cons, ih]
    by_cases hn : IsMarker n
    · by_cases ho : n = opaqueWhiteout
      · subst n
        simp [addUpper, noteMarker, hidden, hn]
      · simp [addUpper, noteMarker, hidden, hn, ho]
    · simp [addUpper, push, hidden, hn]

theorem Perm.of_names {names names' : List Name} (h : names.Perm names') :
    Perm (names.foldl addUpper {}) (names'.foldl addUpper {}) := by
  rw [foldl_addUpper, foldl_addUpper]
  have hnames := h.filter fun n => ¬ IsMarker n
  refine ⟨?_, ?_, ?_⟩
  · simpa using hnames
  · simpa using (List.reverse_perm _).trans (hnames.trans (List.reverse_perm _).symm)
  · simpa using (List.reverse_perm _).trans
      ((h.filterMap hidden).trans (List.reverse_perm _).symm)

theorem Perm.addLower {acc acc' : Listing} (h : Perm acc acc') (n : Name) :
    Perm (acc.addLower n) (acc'.addLower n) := by
  unfold Listing.addLower
  simp only [h.seen.mem_iff, h.whiteouts.mem_iff]
  split
  · unfold noteMarker
    split
    · exact h
    · exact ⟨h.entries, h.seen, h.whiteouts.cons _⟩
  · split
    · exact h
    · exact ⟨h.entries.append_right _, h.seen.cons _, h.whiteouts⟩

theorem Perm.foldl {acc acc' : Listing} (h : Perm acc acc') (names : List Name) :
    Perm (names.foldl Listing.addLower acc) (names.foldl Listing.addLower acc') := by
  induction names generalizing acc acc' with
  | nil => exact h
  | cons n names ih => exact ih (h.addLower n)

end LayerFS.Listing

namespace SameContent

variable {υ ℓ : Type} [FileSystem υ] {u u' : υ} {lower : List ℓ} {p : Path}

theorem opaqueWalk (h : SameContent u u') (up : List Name) :
    LayerFS.opaqueWalk u up = LayerFS.opaqueWalk u' up := by
  induction up with
  | nil => exact h.existsAt _
  | cons n up ih => rw [LayerFS.opaqueWalk, LayerFS.opaqueWalk, h.existsAt, ih]

theorem listUpper (h : SameContent u u') :
    Agree Listing.Perm (LayerFS.listUpper p ⟨u, lower⟩) (LayerFS.listUpper p ⟨u', lower⟩) := by
  unfold LayerFS.listUpper
  refine (Agree.of_eq (fun _ => rfl) (h.existsAt p)).bind ?_
  rintro b _ rfl
  cases b with
  | false => exact ⟨.nil, .nil, .nil⟩
  | true => exact (h.readDir p).bind fun names names' hnames => Listing.Perm.of_names hnames

variable [FileSystem ℓ]

theorem resolve (h : SameContent u u') (lower : List ℓ) (p : Path) :
    LayerFS.resolve p ⟨u, lower⟩ = LayerFS.resolve p ⟨u', lower⟩ := by
  unfold LayerFS.resolve isWhiteout isOpaqueAbove
  simp only [h.existsAt, h.opaqueWalk]

theorem existsAt_view (h : SameContent u u') (lower : List ℓ) (p : Path) :
    LayerFS.existsAt p ⟨u, lower⟩ = LayerFS.existsAt p ⟨u', lower⟩ := by
  rw [LayerFS.existsAt, LayerFS.existsAt, h.resolve]

theorem metadata_view (h : SameContent u u') (lower : List ℓ) (p : Path) :
    LayerFS.metadata p ⟨u, lower⟩ = LayerFS.metadata p ⟨u', lower⟩ := by
  have hresolved : ∀ x : Resolved ℓ,
      x.metadata p (⟨u, lower⟩ : LayerFS υ ℓ) = x.metadata p ⟨u', lower⟩ := by
    rintro (_ | ⟨i, layer⟩)
    · exact h.metadata p
    · rfl
  unfold LayerFS.metadata
  simp only [h.resolve, hresolved]

theorem openFile_view (h : SameContent u u') (lower : List ℓ) (p : Path) :
    LayerFS.openFile p ⟨u, lower⟩ = LayerFS.openFile p ⟨u', lower⟩ := by
  have hresolved : ∀ x : Resolved ℓ,
      x.openFile p (⟨u, lower⟩ : LayerFS υ ℓ) = x.openFile p ⟨u', lower⟩ := by
    rintro (_ | ⟨i, layer⟩)
    · exact h.openFile p
    · rfl
  unfold LayerFS.openFile
  simp only [h.resolve, hresolved]

/-- Accumulators that agree are merged with the lower layers alike. -/
theorem agree_mergeLower {acc acc' : Listing} (h : acc.Perm acc') (lower : List ℓ) (p : Path) :
    Agree Listing.Perm (mergeLower p lower acc) (mergeLower p lower acc') := by
  induction lower generalizing acc acc' with
  | nil => exact h
  | cons layer rest ih =>
    unfold mergeLower
    refine (Agree.of_eq (fun _ => rfl) rfl).bind ?_
    rintro b _ rfl
    cases b with
    | false => exact ih h
    | true =>
      refine (Agree.of_eq (fun _ => rfl) rfl).bind ?_
      rintro names _ rfl
      exact ih (h.foldl names)

/-- The merged listing. -/
theorem readDir_view (h : SameContent u u') (lower : List ℓ) (p : Path) :
    LayerFS.readDir p ⟨u, lower⟩ = LayerFS.readDir p ⟨u', lower⟩ := by
  -- sorting forgets the order of the entries
  have hsort : ∀ l l' : Listing, l.Perm l' →
      l.entries.insertionSort (· ≤ ·) = l'.entries.insertionSort (· ≤ ·) := by
    intro l l' hl
    have hperm := (List.perm_insertionSort (· ≤ ·) l.entries).trans
      (hl.entries.trans (List.perm_insertionSort (· ≤ ·) l'.entries).symm)
    exact List.Perm.eq_of_pairwise (fun _ _ _ _ => le_antisymm)
      (List.pairwise_insertionSort _ _) (List.pairwise_insertionSort _ _) hperm
  apply Agree.eq
  unfold LayerFS.readDir
  refine (Agree.of_eq (fun _ => rfl) (h.existsAt _)).bind ?_
  rintro isOpaque _ rfl
  refine h.listUpper.bind fun acc acc' hacc => ?_
  cases isOpaque with
  | true => exact hsort acc acc' hacc
  | false => exact (agree_mergeLower hacc lower p).bind hsort

end SameContent

end Rspacefs
