import Rspacefs.Core.Changes
import Rspacefs.Core.Listing
import Rspacefs.Core.Pointwise

/-!
# Removing a directory and creating it again

Removing a directory that lower layers hold leaves one whiteout marker in the
upper layer, and creating it again takes that marker away. Nothing then stands
between the new directory and what the lower layers hold under it: it is empty
exactly when they have nothing to show.

## Main definitions

* `RemovedDir` — `remove_dir` or `move_dir` returned
* `Hollow` — the upper layer holds the directory and nothing below it

## Main results

* `hollow_of_recreate` — what the two calls leave in the upper layer
* `readDir_hollow_iff`, `existsAt_hollow` — listing and lookup in a hollow directory
* `recreated_dir_empty_iff` — when a recreated directory starts empty
-/

namespace Rspacefs

open Lib LayerFS

variable {fs fs₁ fs₂ : Stack} {d p q r : Path} {n : Name}

/-- `d` was removed, by `remove_dir` or by `move_dir` to some `e`. -/
def RemovedDir (fs : Stack) (d : Path) (fs₁ : Stack) : Prop :=
  (LayerFS.removeDir d).run fs = .ok () fs₁ ∨
    ∃ frames e, PlainPath e ∧ (LayerFS.moveDir frames d e).run fs = .ok () fs₁

/-- The upper layer holds the directory `d` with nothing in it, not hidden, over
the lower layers and below the opaque markers of `fs`. -/
structure Hollow (fs : Stack) (d : Path) (fs₂ : Stack) : Prop where
  lower : fs₂.lower = fs.lower
  dir : fs₂.upper.get? d = some .dir
  empty : ∀ r, r ≠ [] → fs₂.upper.get? (d ++ r) = none
  opaqueAbove : fs₂.upper.opaqueAbove d = fs.upper.opaqueAbove d
  ne_nil : d ≠ []

/-- The lower layers and the opaque markers above `d` are as in `fs`. -/
def SameAbove (fs : Stack) (d : Path) (fs' : Stack) : Prop :=
  fs'.lower = fs.lower ∧
    ∀ q, q <+: d.dropLast → fs'.upper.get? (opaquePath q) = fs.upper.get? (opaquePath q)

theorem SameAbove.opaqueAbove (h : SameAbove fs d fs₁) :
    fs₁.upper.opaqueAbove d = fs.upper.opaqueAbove d := by
  rw [Bool.eq_iff_iff, Tree.opaqueAbove_eq_true, Tree.opaqueAbove_eq_true]
  exact exists_congr fun q => and_congr_right fun hq => by rw [h.2 q hq]

theorem SameAbove.puts (h : SameAbove fs d fs₁) (hp : NoMarker p) (hputs : Puts p fs₁ fs₂) :
    SameAbove fs d fs₂ :=
  ⟨hputs.lower.trans h.1, fun q hq => (hputs.get?_opaquePath hp q).trans (h.2 q hq)⟩

theorem SameAbove.cuts (h : SameAbove fs d fs₁) (hp : NoMarker p) (hcuts : Cuts p fs₁ fs₂) :
    SameAbove fs d fs₂ :=
  ⟨hcuts.lower.trans h.1, fun q hq => (hcuts.get?_opaquePath hp q).trans (h.2 q hq)⟩

/-- Markers dropped at or below `d` are not above `d`. -/
theorem SameAbove.dropMarker {m : Name} (hd : d ≠ []) (h : SameAbove fs d fs₁)
    (hupd : Upd fs₁ fs₂ (d ++ r ++ [m]) none) : SameAbove fs d fs₂ := by
  refine ⟨hupd.lower.trans h.1, fun q hq => (hupd.get?_of_ne ?_).trans (h.2 q hq)⟩
  intro he
  obtain rfl := (List.append_inj' he rfl).1
  exact not_prefix_dropLast hd ((List.prefix_append d r).trans hq)

theorem noMarker_append (hp : NoMarker p) (hr : NoMarker r) : NoMarker (p ++ r) := by
  intro n hn
  rcases List.mem_append.mp hn with hn | hn
  · exact hp n hn
  · exact hr n hn

/-- What a removal leaves: nothing at `d`, and above `d` what was there. -/
theorem RemovedDir.spec (hd : PlainPath d) (h : RemovedDir fs d fs₁) :
    fs₁.upper.get? d = none ∧ d ≠ [] ∧ SameAbove fs d fs₁ := by
  have hstart : SameAbove fs d fs := ⟨rfl, fun _ _ => rfl⟩
  have hcuts : ∀ {r : Path}, NoMarker r → ∀ s s', SameAbove fs d s → Cuts (d ++ r) s s' →
      SameAbove fs d s' :=
    fun hr _ _ hs hc => hs.cuts (noMarker_append hd.noMarker hr) hc
  rcases h with h | ⟨frames, e, he, h⟩
  · have hremoved := (removeDir_spec fs d).ok rfl h
    have hsame := (removeDir_keeps fun s s' hs hc => SameAbove.cuts hs hd.noMarker hc).ok hstart h
    exact ⟨hremoved.entry, hremoved.ne_nil, hsame⟩
  · obtain ⟨_, fs', hcopy, hremove⟩ := run_bind_eq_ok.mp h
    have hsame' := (copyDirRecursive_keeps frames d e fun r hr s s' hs hp =>
      SameAbove.puts hs (noMarker_append he.noMarker hr) hp).ok hstart hcopy
    -- the last thing `remove_dir_recursive` does is `remove_dir`
    cases frames with
    | zero => cases hcopy
    | succ frames =>
      have hlast := hremove
      rw [removeDirRecursive] at hlast
      obtain ⟨_, s₁, -, hlast⟩ := run_bind_eq_ok.mp hlast
      obtain ⟨_, s₂, -, hlast⟩ := run_bind_eq_ok.mp hlast
      obtain ⟨_, s₃, -, hlast⟩ := run_bind_eq_ok.mp hlast
      have hremoved := (removeDir_spec s₃ d).ok rfl hlast
      have hsame := (removeDirRecursive_keeps (frames + 1) d (fun r hr => hcuts hr)
        fun r m _ _ s s' hs hupd => hs.dropMarker hremoved.ne_nil hupd).ok hsame' hremove
      exact ⟨hremoved.entry, hremoved.ne_nil, hsame⟩

/-- After a removal, `create_dir` leaves a hollow directory. -/
theorem hollow_of_recreate (hd : PlainPath d) (hremoved : RemovedDir fs d fs₁)
    (hcreate : (LayerFS.createDir d).run fs₁ = .ok () fs₂) : Hollow fs d fs₂ := by
  obtain ⟨hnone, hne, hsame⟩ := hremoved.spec hd
  have hplaced := (createDir_spec fs₁ d).ok rfl hcreate
  have hsame₂ : SameAbove fs d fs₂ := by
    have hI : ∀ s s', SameAbove fs d s → Puts d s s' → SameAbove fs d s' :=
      fun _ _ hs hp => hs.puts hd.noMarker hp
    exact (createDir_keeps (keptByMkdir_of_puts hI) (keptByUnmark_of_puts hI)).ok hsame hcreate
  refine ⟨hsame₂.1, hplaced.entry, fun r hr => ?_, hsame₂.opaqueAbove, hne⟩
  have hbelow : fs₁.upper.get? (d ++ r) = none :=
    PathMap.get?_eq_none_of_isPrefix (List.prefix_append d r) hnone
  have hlen : d.length < (d ++ r).length := by
    simp [List.length_pos_of_ne_nil hr]
  have hmarker : d ++ r ≠ whiteoutPath d := by
    intro he
    have hlen' := congrArg List.length he
    have hpos := List.length_pos_of_ne_nil hne
    simp only [whiteoutPath, splitPath, List.length_append, List.length_dropLast,
      List.length_cons, List.length_nil] at hlen' hlen
    omega
  rcases hplaced.touched (d ++ r) (by simpa using hr) hmarker with h | ⟨-, -, -, hpre⟩
  · rw [h, hbelow]
  · have := hpre.length_le
    rw [List.length_dropLast] at this
    omega

/-! ### Listing and lookup in a hollow directory -/

theorem mergeLower_isOk {lower : List Tree} (acc : LayerFS.Listing) :
    (∃ acc', mergeLower d lower acc = .ok acc') ↔ ∀ t ∈ lower, ∀ c, t.get? d ≠ some (.file c) := by
  induction lower generalizing acc with
  | nil => simp [mergeLower, pure, Except.pure]
  | cons t rest ih =>
    rw [List.forall_mem_cons, mergeLower, Tree.existsAt_eq]
    cases hd : t.get? d with
    | none => simpa [bind, Except.bind] using ih acc
    | some node =>
      cases node with
      | file c => simp [bind, Except.bind, Tree.readDir_file hd]
      | dir => simpa [bind, Except.bind, Tree.readDir_dir hd] using ih _

/-- A hollow directory lists what the lower layers list. -/
theorem readDir_hollow_iff (h : Hollow fs d fs₂) :
    LayerFS.readDir d fs₂ = .ok [] ↔
      (∀ t ∈ fs.lower, ∀ c, t.get? d ≠ some (.file c)) ∧
        ∀ n, ¬ IsMarker n → lowerLists d n fs.lower = false := by
  have hopq : fs₂.upper.get? (opaquePath d) = none := h.empty _ (by simp)
  -- the upper layer adds no name and hides none
  have hmem : ∀ {l}, LayerFS.readDir d fs₂ = .ok l → ∀ n, ¬ IsMarker n →
      (n ∈ l ↔ lowerLists d n fs.lower = true) := by
    intro l hl n hn
    have hhides : fs₂.upper.hides (d ++ [n]) = false := by
      rw [Tree.hides_eq_false, whiteoutPath_concat]
      exact h.empty _ (by simp)
    rw [mem_readDir hn hl, h.empty [n] (by simp), hopq, hhides, h.lower]
    simp
  constructor
  · intro hl
    obtain ⟨acc, -, ⟨hsome, -⟩ | ⟨-, acc', hmerge, -⟩⟩ := readDir_cases hl
    · simp [hopq] at hsome
    · rw [h.lower] at hmerge
      refine ⟨(mergeLower_isOk acc).mp ⟨acc', hmerge⟩, fun n hn => ?_⟩
      rw [Bool.eq_false_iff]
      exact fun htrue => List.not_mem_nil ((hmem hl n hn).mpr htrue)
  · rintro ⟨hfiles, hlists⟩
    obtain ⟨acc', hmerge⟩ :=
      (mergeLower_isOk ((fs₂.upper.children d).foldl Listing.addUpper {})).mpr hfiles
    have hl : LayerFS.readDir d fs₂ = .ok (acc'.entries.insertionSort (· ≤ ·)) := by
      rw [← h.lower] at hmerge
      simp [LayerFS.readDir, listUpper, hopq, h.dir, Tree.readDir_dir h.dir, hmerge, bind,
        Except.bind, pure, Except.pure]
    rw [hl, Except.ok.injEq, List.eq_nil_iff_forall_not_mem]
    intro n hn
    have := (hmem hl n (not_isMarker_of_mem_readDir hl hn)).mp hn
    rw [hlists n (not_isMarker_of_mem_readDir hl hn)] at this
    cases this

/-- Below a hollow directory the lower layers show, unless an opaque marker lies
above it. -/
theorem existsAt_hollow (h : Hollow fs d fs₂) (hr : r ≠ []) :
    LayerFS.existsAt (d ++ r) fs₂ = .ok false ↔
      fs.upper.opaqueAbove d = true ∨ lowerView fs.lower (d ++ r) = none := by
  obtain ⟨r, n, rfl⟩ := (List.eq_nil_or_concat' r).resolve_left hr
  have hhides : fs₂.upper.hides (d ++ (r ++ [n])) = false := by
    rw [Tree.hides_eq_false, ← List.append_assoc, whiteoutPath_concat, List.append_assoc]
    exact h.empty _ (by simp)
  -- a marker above the path is above `d`, for there is none in or below a hollow directory
  have habove : fs₂.upper.opaqueAbove (d ++ (r ++ [n])) = fs.upper.opaqueAbove d := by
    rw [← h.opaqueAbove, Bool.eq_iff_iff, Tree.opaqueAbove_eq_true, Tree.opaqueAbove_eq_true]
    rw [← List.append_assoc, List.dropLast_concat]
    constructor
    · rintro ⟨q, hq, hsome⟩
      refine ⟨q, ?_, hsome⟩
      rcases List.prefix_or_prefix_of_prefix hq (List.prefix_append d r) with hqd | ⟨x, rfl⟩
      · by_cases hqe : q = d
        · subst hqe
          rw [opaquePath, h.empty _ (by simp)] at hsome
          cases hsome
        · obtain ⟨e, m, rfl⟩ := (List.eq_nil_or_concat' d).resolve_left h.ne_nil
          rw [List.dropLast_concat]
          exact (List.prefix_concat_iff.mp hqd).resolve_left hqe
      · rw [opaquePath, List.append_assoc, h.empty _ (by simp)] at hsome
        cases hsome
    · rintro ⟨q, hq, hsome⟩
      exact ⟨q, hq.trans ((List.dropLast_prefix d).trans (List.prefix_append _ _)), hsome⟩
  rw [LayerFS.existsAt_eq, view_of_passed hhides (h.empty _ (by simp)), habove, h.lower]
  cases fs.upper.opaqueAbove d <;> simp

/-- A recreated directory starts empty exactly when no lower layer has a file in
its place, the lower layers list nothing in it, and they show nothing below it or
an opaque marker of the upper layer lies above it. -/
theorem recreated_dir_empty_iff (fs fs₁ fs₂ : Stack) (d : Path) (hd : PlainPath d)
    (hremoved : RemovedDir fs d fs₁) (hcreate : (LayerFS.createDir d).run fs₁ = .ok () fs₂) :
    (LayerFS.readDir d fs₂ = .ok [] ∧
        ∀ r, r ≠ [] → LayerFS.existsAt (d ++ r) fs₂ = .ok false) ↔
      (∀ t ∈ fs.lower, ∀ c, t.get? d ≠ some (.file c)) ∧
        (∀ n, ¬ IsMarker n → lowerLists d n fs.lower = false) ∧
        (fs.upper.opaqueAbove d = true ∨ ∀ r, r ≠ [] → lowerView fs.lower (d ++ r) = none) := by
  have hhollow := hollow_of_recreate hd hremoved hcreate
  have hbelow : (∀ r, r ≠ [] → LayerFS.existsAt (d ++ r) fs₂ = .ok false) ↔
      (fs.upper.opaqueAbove d = true ∨ ∀ r, r ≠ [] → lowerView fs.lower (d ++ r) = none) := by
    cases habove : fs.upper.opaqueAbove d with
    | true =>
      simp only [true_or, iff_true]
      exact fun r hr => (existsAt_hollow hhollow hr).mpr (Or.inl habove)
    | false =>
      refine ⟨fun h => Or.inr fun r hr => ?_, fun h r hr => ?_⟩
      · exact ((existsAt_hollow hhollow hr).mp (h r hr)).resolve_left (by simp [habove])
      · exact (existsAt_hollow hhollow hr).mpr (Or.inr (h.resolve_left (by simp) r hr))
  rw [readDir_hollow_iff hhollow, hbelow, and_assoc]

/-- An image layer with a directory that is empty, and one that is not. -/
def tmpImage : List Tree :=
  [Tree.ofEntries [(["tmp".toList], .dir), (["etc".toList], .dir),
    (["etc".toList, "hosts".toList], .file [1])]]

/-- The scratch directory of the image is in the upper layer, too. -/
def scratchStack : Stack := ⟨Tree.ofEntries [(["tmp".toList], .dir)], tmpImage⟩

theorem childless_tmpImage : ∀ t ∈ tmpImage, t.children ["tmp".toList] = [] := by decide

/-- The removal leaves a whiteout over the image's directory, which the creation takes away. -/
theorem recreated_dir_empty_iff_tmp :
    ∃ fs₁ fs₂, RemovedDir scratchStack ["tmp".toList] fs₁ ∧
      fs₁.upper.hides ["tmp".toList] = true ∧
      (LayerFS.createDir ["tmp".toList]).run fs₁ = .ok () fs₂ ∧
      LayerFS.readDir ["tmp".toList] fs₂ = .ok [] ∧
      ∀ r, r ≠ [] → LayerFS.existsAt (["tmp".toList] ++ r) fs₂ = .ok false := by
  have hdir : ∀ t ∈ tmpImage, t.get? ["tmp".toList] = some .dir := by decide
  refine ⟨_, _, Or.inl rfl, by decide, rfl, (recreated_dir_empty_iff scratchStack _ _ _ (by decide)
    (Or.inl rfl) rfl).mpr ⟨fun t ht c => ?_, fun n _ => ?_, Or.inr fun r hr => ?_⟩⟩
  · rw [hdir t ht]
    simp
  · exact lowerLists_of_childless childless_tmpImage
  · obtain ⟨n, rest, rfl⟩ := List.exists_cons_of_ne_nil hr
    refine lowerView_of_forall_none fun t ht => ?_
    have hnone := PathMap.children_eq_nil.mp (childless_tmpImage t ht) n
    exact PathMap.get?_eq_none_of_isPrefix (by simp) hnone

/-- A directory of an image layer comes back with its contents. -/
theorem not_recreated_dir_empty_etc :
    ¬ ∀ (fs fs₁ fs₂ : Stack) (d : Path), PlainPath d → view fs d = some .dir →
      RemovedDir fs d fs₁ → (LayerFS.createDir d).run fs₁ = .ok () fs₂ →
      LayerFS.readDir d fs₂ = .ok [] ∧
        ∀ r, r ≠ [] → LayerFS.existsAt (d ++ r) fs₂ = .ok false := by
  intro h
  have := (h hostsStack _ _ ["etc".toList] (by decide) (by decide) (Or.inl rfl) rfl).1
  revert this
  decide

end Rspacefs
