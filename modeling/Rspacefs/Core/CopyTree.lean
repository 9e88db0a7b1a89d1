import Mathlib.Data.Set.Insert
import Rspacefs.Core.OnlyBelow

/-!
# What `copy_dir_recursive` leaves

The first half of `move_dir`, for a destination that is not above, below or at the source. The
copy reads the merged view of the source while it writes to the upper layer, and writes nothing
that the source shows; so the order in which it goes through the entries does not matter, and
what it has done is told by the set of relative paths that are copied already.

## Main definitions

* `ShownBelow` — the relative paths shown at the source
* `Copyable` — the layers allow every copy
* `Copied` — what the upper layer holds when some of the paths are copied, and others are not

## Main results

* `Copied.placed` — one more path is copied
* `exists_run_copyDirRecursive` — a copy of the whole directory returns, and copies what is shown
-/

namespace Rspacefs

open Lib LayerFS

variable {fs fs' fs₀ : Stack} {p q r d src dest : Path} {n : Name} {m : Node} {S : Set Path}

/-! ### Sets of relative paths -/

/-- The paths of `T` at and below `r`. -/
def Below (T : Set Path) (r : Path) : Set Path := { s | s ∈ T ∧ r <+: s }

/-- The paths of `T` at and below entries of `r`. -/
def BelowAny (T : Set Path) (r : Path) (l : List Name) : Set Path :=
  { s | s ∈ T ∧ ∃ n ∈ l, r ++ [n] <+: s }

theorem belowAny_cons (T : Set Path) (r : Path) (n : Name) (l : List Name) :
    BelowAny T r (n :: l) = Below T (r ++ [n]) ∪ BelowAny T r l := by
  ext s
  simp only [BelowAny, Below, Set.mem_ofPred_eq, Set.mem_union, List.mem_cons, or_and_right,
    exists_or, exists_eq_left, and_or_left]

/-- What is below a directory is below its entries, of which some may be done already. -/
theorem insert_belowAny {T : Set Path} {l : List Name} (hr : r ∈ T)
    (hl : ∀ n s, s ∈ T → r ++ [n] <+: s → s ∈ S ∨ n ∈ l) :
    insert r (S ∪ BelowAny T r l) = S ∪ Below T r := by
  ext s
  simp only [Set.mem_insert_iff, Set.mem_union]
  constructor
  · rintro (rfl | hs | ⟨hs, n, -, hns⟩)
    · exact Or.inr ⟨hr, List.prefix_refl s⟩
    · exact Or.inl hs
    · exact Or.inr ⟨hs, (List.prefix_append r [n]).trans hns⟩
  · rintro (hs | ⟨hs, t, rfl⟩)
    · exact Or.inr (Or.inl hs)
    · cases t with
      | nil => exact Or.inl (by simp)
      | cons n t =>
        have hpre : r ++ [n] <+: r ++ n :: t := ⟨t, by simp⟩
        rcases hl n _ hs hpre with hdone | hn
        · exact Or.inr (Or.inl hdone)
        · exact Or.inr (Or.inr ⟨hs, n, hn, hpre⟩)

/-! ### A set of copies -/

/-- The relative paths that `src` shows something at. -/
def ShownBelow (fs : Stack) (src : Path) : Set Path :=
  { r | NoMarker r ∧ view fs (src ++ r) ≠ none }

/-- The upper layer holds copies of what `fs₀` shows at `src`, for the relative paths in `S`; else
it gained directories above `dest`. -/
structure Copied (fs₀ : Stack) (src dest : Path) (S : Set Path) (fs : Stack) : Prop where
  shown : S ⊆ ShownBelow fs₀ src
  lower : fs.lower = fs₀.lower
  entry : ∀ r ∈ S, fs.upper.get? (dest ++ r) = view fs₀ (src ++ r)
  marker : ∀ r ∈ S, fs.upper.get? (whiteoutPath (dest ++ r)) = none
  rest : ∀ q, (∀ r ∈ S, q ≠ dest ++ r ∧ q ≠ whiteoutPath (dest ++ r)) →
    fs.upper.get? q = fs₀.upper.get? q ∨
      fs₀.upper.get? q = none ∧ fs.upper.get? q = some .dir ∧ q <+: dest.dropLast

namespace Copied

theorem start (fs₀ : Stack) (src dest : Path) : Copied fs₀ src dest ∅ fs₀ where
  shown := Set.empty_subset _
  lower := rfl
  entry := by simp
  marker := by simp
  rest := fun _ _ => Or.inl rfl

theorem onlyBelow (h : Copied fs₀ src dest S fs) : OnlyBelow fs₀ dest fs := by
  refine ⟨h.lower, fun q hpre hmarker => h.rest q fun r _ => ⟨?_, ?_⟩⟩
  · rintro rfl
    exact hpre (List.prefix_append dest r)
  · rintro rfl
    exact (whiteoutPath_append dest r).elim hpre hmarker

/-- The source shows what it did. -/
theorem view_src (h : Copied fs₀ src dest S fs) (ha : Apart src dest) (hr : NoMarker r) :
    view fs (src ++ r) = view fs₀ (src ++ r) :=
  h.onlyBelow.view_of_apart ha.symm hr

/-- What is no copy is as it was. -/
theorem get?_rest (h : Copied fs₀ src dest S fs) (ha : Apart src dest) (hr : NoMarker r)
    (hrS : r ∉ S) : fs.upper.get? (dest ++ r) = fs₀.upper.get? (dest ++ r) := by
  refine (h.rest _ fun s hs => ⟨?_, (ha.symm.unmarked hr).ne_whiteoutPath⟩).resolve_right ?_
  · intro he
    rw [List.append_cancel_left_eq] at he
    exact hrS (he ▸ hs)
  · rintro ⟨-, -, hpre⟩
    exact not_prefix_dropLast ha.symm.ne_nil ((List.prefix_append dest r).trans hpre)

theorem get?_whiteoutPath (h : Copied fs₀ src dest S fs) (ha : Apart src dest) (hr : NoMarker r)
    (hrS : r ∉ S) :
    fs.upper.get? (whiteoutPath (dest ++ r)) = fs₀.upper.get? (whiteoutPath (dest ++ r)) := by
  have hpath := ha.symm.unmarked hr
  refine (h.rest _ fun s hs => ?_).resolve_right ?_
  · have hcopy := ha.symm.unmarked (h.shown hs).1
    refine ⟨hcopy.ne_whiteoutPath.symm, fun he => hrS ?_⟩
    have hrs := hpath.whiteoutPath_inj hcopy he
    rw [List.append_cancel_left_eq] at hrs
    exact hrs ▸ hs
  · rintro ⟨-, -, hpre⟩
    exact (ha.target.dropLast.of_isPrefix hpre).ne_whiteoutPath rfl

theorem get?_opaquePath (h : Copied fs₀ src dest S fs) (ha : Apart src dest) (d : Path) :
    fs.upper.get? (opaquePath d) = fs₀.upper.get? (opaquePath d) := by
  refine (h.rest _ fun r hr => ?_).resolve_right ?_
  · have hr := ha.symm.unmarked (h.shown hr).1
    exact ⟨hr.ne_opaquePath.symm, hr.whiteoutPath_ne_opaquePath.symm⟩
  · rintro ⟨-, -, hpre⟩
    exact (ha.target.dropLast.of_isPrefix hpre).ne_opaquePath rfl

/-- One more path is copied. -/
theorem placed (h : Copied fs₀ src dest S fs) (ha : Apart src dest) (hr : NoMarker r)
    (hview : view fs₀ (src ++ r) = some m)
    (hparent : r ≠ [] → (fs.upper.get? (dest ++ r.dropLast)).isSome)
    (hplaced : Placed fs fs' (dest ++ r) m) : Copied fs₀ src dest (insert r S) fs' := by
  have hgained : ∀ q, fs.upper.get? q = none → q <+: (dest ++ r).dropLast →
      q <+: dest.dropLast := by
    intro q hnone hpre
    by_cases hnil : r = []
    · simpa [hnil] using hpre
    · -- the parent of the copy is there already
      rw [List.dropLast_append_of_ne_nil hnil] at hpre
      have hsome := PathMap.isSome_of_isPrefix hpre (hparent hnil)
      rw [hnone] at hsome
      cases hsome
  have hshown : r ∈ ShownBelow fs₀ src := ⟨hr, by simp [hview]⟩
  refine ⟨Set.insert_subset hshown h.shown, hplaced.lower.trans h.lower, ?_, ?_, ?_⟩
  · intro s hs
    by_cases hsr : s = r
    · rw [hsr, hplaced.entry, hview]
    · have hs := hs.resolve_left hsr
      rcases hplaced.touched (dest ++ s) (by simpa using hsr)
        (ha.symm.unmarked (h.shown hs).1).ne_whiteoutPath with hsame | ⟨hnone, -⟩
      · rw [hsame, h.entry s hs]
      · rw [h.entry s hs] at hnone
        exact absurd hnone (h.shown hs).2
  · intro s hs
    by_cases hsr : s = r
    · rw [hsr, hplaced.marker]
    · have hs := hs.resolve_left hsr
      rw [hplaced.touched.get?_whiteoutPath (ha.symm.unmarked hr)
        (ha.symm.unmarked (h.shown hs).1) (by simpa using hsr), h.marker s hs]
  · -- what is no copy is as it was before this one, or was made above it
    intro q hq
    obtain ⟨hqr, hqm⟩ := hq r (Set.mem_insert r S)
    have hold := h.rest q fun s hs => hq s (Set.mem_insert_of_mem r hs)
    rcases hplaced.touched q hqr hqm with hsame | ⟨hnone, hdir, -, hpre⟩
    · rwa [hsame]
    · rcases hold with hsame | ⟨-, hdir', -⟩
      · exact Or.inr ⟨hsame ▸ hnone, hdir, hgained q hnone hpre⟩
      · rw [hnone] at hdir'
        cases hdir'

/-- Below a copied parent. -/
theorem isSome_parent (h : Copied fs₀ src dest S fs) (habove : ∀ q, q <+: r → q ≠ r → q ∈ S)
    (hne : r ≠ []) : (fs.upper.get? (dest ++ r.dropLast)).isSome := by
  have hparent : r.dropLast ∈ S :=
    habove _ (List.dropLast_prefix r) (ne_of_prefix_dropLast hne (List.prefix_refl _))
  rw [h.entry _ hparent]
  exact Option.isSome_iff_ne_none.mpr (h.shown hparent).2

end Copied

/-! ### Copying everything -/

/-- Everything shown at the source can be copied: it is shown below directories that can be
listed, and the upper layer has no entry of another kind in the place of a copy, no directory in
the place of its marker and no regular file above `dest`. -/
structure Copyable (fs : Stack) (src dest : Path) : Prop where
  tree : ∀ r n, view fs (src ++ (r ++ [n])) ≠ none → NoMarker (r ++ [n]) →
    view fs (src ++ r) = some .dir
  listed : ∀ r, NoMarker r → view fs (src ++ r) = some .dir → ¬ FileInTheWay fs (src ++ r)
  free : ¬ Blocked fs dest
  marker : ∀ r, r ∈ ShownBelow fs src → fs.upper.get? (whiteoutPath (dest ++ r)) ≠ some .dir
  kind : ∀ r, r ∈ ShownBelow fs src → ∀ m, fs.upper.get? (dest ++ r) = some m →
    (m = .dir ↔ view fs (src ++ r) = some .dir)

namespace Copyable

/-- Above what is shown there are directories. -/
theorem view_of_isPrefix (h : Copyable fs src dest) (hr : r ∈ ShownBelow fs src) (hq : q <+: r)
    (hne : q ≠ r) : view fs (src ++ q) = some .dir := by
  induction r using List.reverseRecOn with
  | nil => exact absurd (List.prefix_nil.mp hq) hne
  | append_singleton r n ih =>
    have hdir := h.tree r n hr.2 hr.1
    rcases List.prefix_concat_iff.mp hq with rfl | hqr
    · exact absurd rfl hne
    · by_cases he : q = r
      · rw [he, hdir]
      · exact ih ⟨hr.1.of_isPrefix (List.prefix_append r [n]), by simp [hdir]⟩ hqr he

end Copyable

namespace Copied

variable (hcan : Copyable fs₀ src dest) (ha : Apart src dest)
include hcan ha

/-- A path whose parents are copied is not shut. -/
theorem not_shut (h : Copied fs₀ src dest S fs) (hr : r ∈ ShownBelow fs₀ src)
    (habove : ∀ q, q <+: r → q ≠ r → q ∈ S) : ¬ Shut fs (dest ++ r) := by
  rintro (⟨q, c, hq, hfile⟩ | hmarker)
  · have hqr := hq.trans (List.dropLast_prefix _)
    by_cases hbelow : dest <+: q
    · -- a copied directory
      obtain ⟨s, rfl⟩ := hbelow
      rw [List.prefix_append_right_inj] at hqr
      have hne : s ≠ r := by
        rintro rfl
        exact not_prefix_dropLast (by simp [ha.symm.ne_nil]) hq
      rw [h.entry s (habove s hqr hne), hcan.view_of_isPrefix hr hqr hne] at hfile
      cases hfile
    · -- a directory on the way to `dest`, which was no file before or was made
      have hqd : q <+: dest := (List.prefix_or_prefix_of_prefix hqr
        (List.prefix_append dest r)).resolve_right hbelow
      have hqm : q ≠ whiteoutPath dest := (ha.target.of_isPrefix hqd).ne_whiteoutPath
      rcases h.onlyBelow.off q hbelow hqm with hsame | ⟨-, hdir, -⟩
      · refine hcan.free ⟨q, c, prefix_dropLast_of_ne hqd ?_, hsame ▸ hfile⟩
        rintro rfl
        exact hbelow (List.prefix_refl q)
      · rw [hdir] at hfile
        cases hfile
  · by_cases hrS : r ∈ S
    · rw [h.marker r hrS] at hmarker
      cases hmarker
    · rw [h.get?_whiteoutPath ha hr.1 hrS] at hmarker
      exact hcan.marker r hr hmarker

/-- An entry in the place of a copy is of its kind. -/
theorem kind (h : Copied fs₀ src dest S fs) (hr : r ∈ ShownBelow fs₀ src)
    (hentry : fs.upper.get? (dest ++ r) = some m) :
    m = .dir ↔ view fs₀ (src ++ r) = some .dir := by
  by_cases hrS : r ∈ S
  · rw [← h.entry r hrS, hentry, Option.some.injEq]
  · exact hcan.kind r hr m (h.get?_rest ha hr.1 hrS ▸ hentry)

theorem exists_run_makeTarget (h : Copied fs₀ src dest S fs) (hr : NoMarker r)
    (hview : view fs₀ (src ++ r) = some .dir) (habove : ∀ q, q <+: r → q ≠ r → q ∈ S) :
    ∃ fs', (makeTarget (dest ++ r)).run fs = .ok () fs' ∧ Copied fs₀ src dest (insert r S) fs' := by
  have hshown : r ∈ ShownBelow fs₀ src := ⟨hr, by simp [hview]⟩
  obtain ⟨⟨⟩, fs', hrun⟩ := returns_makeTarget_iff.mpr (h.not_shut hcan ha hshown habove)
  refine ⟨fs', hrun, h.placed ha hr hview (h.isSome_parent habove) ?_⟩
  have hplaced := (makeTarget_spec fs (by simp [ha.symm.ne_nil])).ok rfl hrun
  cases hentry : fs.upper.get? (dest ++ r) with
  | none => rwa [hentry] at hplaced
  | some m =>
    rw [hentry, Option.getD_some, (h.kind hcan ha hshown hentry).mpr hview] at hplaced
    exact hplaced

theorem exists_run_copyFile {c : Bytes} (h : Copied fs₀ src dest S fs) (hr : NoMarker r)
    (hview : view fs₀ (src ++ r) = some (.file c)) (habove : ∀ q, q <+: r → q ≠ r → q ∈ S) :
    ∃ fs', (LayerFS.copyFile (src ++ r) (dest ++ r) : VfsM Stack Unit).run fs = .ok () fs' ∧
      Copied fs₀ src dest (insert r S) fs' := by
  have hshown : r ∈ ShownBelow fs₀ src := ⟨hr, by simp [hview]⟩
  have hsource : view fs (src ++ r) = some (.file c) := (h.view_src ha hr).trans hview
  have hdir : fs.upper.get? (dest ++ r) ≠ some .dir := by
    intro hentry
    have := (h.kind hcan ha hshown hentry).mp rfl
    rw [hview] at this
    cases this
  obtain ⟨⟨⟩, fs', hrun⟩ :=
    returns_copyFile_iff.mpr ⟨⟨c, hsource⟩, hdir, h.not_shut hcan ha hshown habove⟩
  obtain ⟨c', hc', hplaced⟩ := (copyFile_spec fs (src ++ r) (dest ++ r)).ok rfl hrun
  rw [hsource] at hc'
  cases hc'
  exact ⟨fs', hrun, h.placed ha hr hview (h.isSome_parent habove) hplaced⟩

end Copied

namespace Copyable

/-- Below what is not shown nothing is. -/
theorem below_eq_empty (h : Copyable fs src dest) (hview : view fs (src ++ r) = none) :
    Below (ShownBelow fs src) r = ∅ := by
  rw [Set.eq_empty_iff_forall_notMem]
  rintro s ⟨hs, hrs⟩
  by_cases he : r = s
  · exact hs.2 (he ▸ hview)
  · rw [h.view_of_isPrefix hs hrs he] at hview
    cases hview

/-- Nor below a file. -/
theorem below_file {c : Bytes} (h : Copyable fs src dest) (hr : NoMarker r)
    (hview : view fs (src ++ r) = some (.file c)) : Below (ShownBelow fs src) r = {r} := by
  ext s
  rw [Set.mem_singleton_iff]
  constructor
  · rintro ⟨hs, hrs⟩
    by_contra hne
    rw [h.view_of_isPrefix hs hrs (Ne.symm hne)] at hview
    cases hview
  · rintro rfl
    exact ⟨⟨hr, by simp [hview]⟩, List.prefix_refl s⟩

end Copyable

section

variable (hcan : Copyable fs₀ src dest) (ha : Apart src dest)
include hcan ha

/-- One entry, given what the recursive call does. -/
theorem exists_run_copyEntry {descend : Path → Path → VfsM Stack Unit}
    (h : Copied fs₀ src dest S fs) (hr : NoMarker (r ++ [n]))
    (habove : ∀ q, q <+: r ++ [n] → q ≠ r ++ [n] → q ∈ S)
    (hdescend : view fs₀ (src ++ (r ++ [n])) = some .dir →
      ∃ fs', (descend (src ++ (r ++ [n])) (dest ++ (r ++ [n]))).run fs = .ok () fs' ∧
        Copied fs₀ src dest (S ∪ Below (ShownBelow fs₀ src) (r ++ [n])) fs') :
    ∃ fs', (copyEntry descend (src ++ r) (dest ++ r) n).run fs = .ok () fs' ∧
      Copied fs₀ src dest (S ∪ Below (ShownBelow fs₀ src) (r ++ [n])) fs' := by
  have hsame := h.view_src ha hr
  rw [run_copyEntry, List.append_assoc, List.append_assoc, hsame]
  cases hview : view fs₀ (src ++ (r ++ [n])) with
  | none =>
    rw [hcan.below_eq_empty hview, Set.union_empty]
    exact ⟨fs, rfl, h⟩
  | some node =>
    cases node with
    | dir => exact hdescend hview
    | file c =>
      rw [hcan.below_file hr hview, Set.union_singleton]
      exact h.exists_run_copyFile hcan ha hr hview habove

/-- The loop over the entries of a directory. -/
theorem exists_run_copyEntries (descend : Path → Path → VfsM Stack Unit) (l : List Name)
    (h : Copied fs₀ src dest S fs) (hr : ∀ n ∈ l, NoMarker (r ++ [n]))
    (habove : ∀ q, q <+: r → q ∈ S)
    (hdescend : ∀ n ∈ l, ∀ S fs, Copied fs₀ src dest S fs → (∀ q, q <+: r → q ∈ S) →
      view fs₀ (src ++ (r ++ [n])) = some .dir →
      ∃ fs', (descend (src ++ (r ++ [n])) (dest ++ (r ++ [n]))).run fs = .ok () fs' ∧
        Copied fs₀ src dest (S ∪ Below (ShownBelow fs₀ src) (r ++ [n])) fs') :
    ∃ fs', (l.forM (copyEntry descend (src ++ r) (dest ++ r))).run fs = .ok () fs' ∧
      Copied fs₀ src dest (S ∪ BelowAny (ShownBelow fs₀ src) r l) fs' := by
  induction l generalizing S fs with
  | nil =>
    refine ⟨fs, rfl, ?_⟩
    simpa [BelowAny] using h
  | cons n l ih =>
    have hup : ∀ q, q <+: r ++ [n] → q ≠ r ++ [n] → q ∈ S :=
      fun q hq hne => habove q ((List.prefix_concat_iff.mp hq).resolve_left hne)
    obtain ⟨fs₁, hrun, h₁⟩ := exists_run_copyEntry hcan ha h (hr n List.mem_cons_self) hup
      (hdescend n List.mem_cons_self S fs h habove)
    obtain ⟨fs', hrest, h'⟩ := ih h₁ (fun m hm => hr m (List.mem_cons_of_mem n hm))
      (fun q hq => Or.inl (habove q hq)) fun m hm => hdescend m (List.mem_cons_of_mem n hm)
    refine ⟨fs', run_bind_eq_ok.mpr ⟨(), fs₁, hrun, hrest⟩, ?_⟩
    rwa [belowAny_cons, ← Set.union_assoc]

/-- A directory whose parents are copied: the call returns when its frames reach what is below
it, and copies all of that. -/
theorem exists_run_copyDirRecursive (frames : Nat) (h : Copied fs₀ src dest S fs) (hr : NoMarker r)
    (hview : view fs₀ (src ++ r) = some .dir) (habove : ∀ q, q <+: r → q ≠ r → q ∈ S)
    (hframes : ∀ s ∈ Below (ShownBelow fs₀ src) r, s.length < r.length + frames) :
    ∃ fs', (copyDirRecursive frames (src ++ r) (dest ++ r) : VfsM Stack Unit).run fs = .ok () fs' ∧
      Copied fs₀ src dest (S ∪ Below (ShownBelow fs₀ src) r) fs' := by
  induction frames generalizing r S fs with
  | zero =>
    have := hframes r ⟨⟨hr, by simp [hview]⟩, List.prefix_refl r⟩
    omega
  | succ frames ih =>
    obtain ⟨fs₁, hmake, h₁⟩ := h.exists_run_makeTarget hcan ha hr hview habove
    -- the source can be listed still
    have hfree : ¬ FileInTheWay fs₁ (src ++ r) := by
      rw [h₁.onlyBelow.fileInTheWay_iff ha.symm]
      exact hcan.listed r hr hview
    obtain ⟨l, hl⟩ := exists_readDir hfree
    have hplain : ∀ n ∈ l, NoMarker (r ++ [n]) :=
      fun n hn => hr.concat (not_isMarker_of_mem_readDir hl hn)
    have hall : ∀ q, q <+: r → q ∈ insert r S := by
      intro q hq
      by_cases hqr : q = r
      · exact Or.inl hqr
      · exact Or.inr (habove q hq hqr)
    obtain ⟨fs', hrest, h'⟩ := exists_run_copyEntries hcan ha (copyDirRecursive frames) l h₁
      hplain hall fun n hn T fs h habove hdir => by
        refine ih h (hplain n hn) hdir
          (fun q hq hne => habove q ((List.prefix_concat_iff.mp hq).resolve_left hne)) ?_
        rintro s ⟨hs, hpre⟩
        have := hframes s ⟨hs, (List.prefix_append r [n]).trans hpre⟩
        simp only [List.length_append, List.length_cons, List.length_nil]
        omega
    refine ⟨fs', ?_, ?_⟩
    · rw [copyDirRecursive_succ]
      exact run_bind_eq_ok.mpr ⟨(), fs₁, hmake, run_bind_eq_ok.mpr
        ⟨l, fs₁, run_ask_eq_ok.mpr ⟨hl, rfl⟩, hrest⟩⟩
    · have hself : r ∈ ShownBelow fs₀ src := ⟨hr, by simp [hview]⟩
      rw [Set.insert_union, insert_belowAny hself] at h'
      · exact h'
      -- what is shown below is below an entry that was listed
      intro n s hs hpre
      right
      have hn : NoMarker (r ++ [n]) := hs.1.of_isPrefix hpre
      have hseen : view fs₀ (src ++ (r ++ [n])) ≠ none := by
        by_cases he : r ++ [n] = s
        · rw [he]
          exact hs.2
        · simp [hcan.view_of_isPrefix hs hpre he]
      apply mem_readDir_of_isSome_view (hn n (by simp)) hl
      rw [List.append_assoc, h₁.view_src ha hn]
      exact Option.isSome_iff_ne_none.mpr hseen

end

end Rspacefs
