import Rspacefs.Core.Recreate
import Rspacefs.Core.Succeed

/-!
# Layers that disagree about the kind of a path

Two layers may hold the same path, one as a file and one as a directory; lookup
goes by the first of them. Two methods do not. `create_dir` asks the upper layer
alone whether the path is taken, and so puts a directory over whatever the lower
layers show there. `read_dir` lists every layer that has the path, and fails at
the first file it meets, however far below the directory that is shown.

## Main definitions

* `Rejects` — a call failed and the merged view is what it was
* `FileInTheWay` — a layer that a listing reads has a file where the directory is

## Main results

* `createDir_rejects_iff` — when `create_dir` spares an entry that exists
* `readDir_isOk_iff` — when a directory that is shown can be listed
-/

namespace Rspacefs

open Lib LayerFS

variable {fs : Stack} {p d : Path}

/-- The call failed, and every path is shown as before. -/
def Rejects {α : Type} (x : VfsM Stack α) (fs : Stack) : Prop :=
  ∃ e fs', x.run fs = .error e fs' ∧ ∀ q, view fs' q = view fs q

theorem Rejects.of_refuses {α : Type} {x : VfsM Stack α} (h : Refuses x fs) : Rejects x fs := by
  obtain ⟨e, he⟩ := h
  exact ⟨e, fs, he, fun _ => rfl⟩

theorem Rejects.not_returns {α : Type} {x : VfsM Stack α} (h : Rejects x fs) : ¬ Returns x fs := by
  obtain ⟨e, fs₁, he, -⟩ := h
  rintro ⟨a, fs', hok⟩
  rw [he] at hok
  cases hok

/-! ### Creating a directory -/

/-- `create_dir` spares an entry that exists exactly if the upper layer holds it, or has a
regular file above it. -/
theorem createDir_rejects_iff (fs : Stack) (p : Path) (hview : view fs p ≠ none) :
    Rejects (LayerFS.createDir p) fs ↔ fs.upper.get? p ≠ none ∨ Blocked fs p := by
  obtain ⟨n, hn⟩ := Option.ne_none_iff_exists'.mp hview
  -- what exists is not whited out
  have hmark : fs.upper.get? (whiteoutPath p) = none := Tree.hides_eq_false.mp (hides_of_view hn)
  constructor
  · intro hrejects
    by_contra hfree
    push Not at hfree
    apply hrejects.not_returns
    refine returns_createDir_iff.mpr ⟨hfree.1, ?_⟩
    rintro (hblocked | hdir)
    · exact hfree.2 hblocked
    · rw [hmark] at hdir
      cases hdir
  · intro h
    apply Rejects.of_refuses
    rcases h with hupper | hblocked
    · obtain ⟨m, hm⟩ := Option.ne_none_iff_exists'.mp hupper
      apply refuses_of_there (isSome_parent hm) hmark
      exact Refuses.onUpper (Refuses.ask_bind fun _ _ => Tree.refuses_createDir hupper)
    · apply Shut.refuses (Or.inl hblocked)
      intro hparent
      exact Refuses.onUpper (VfsPath.refuses_createDir hparent)

theorem createDir_rejects_iff_tmp : Rejects (LayerFS.createDir ["tmp".toList]) scratchStack := by
  apply (createDir_rejects_iff scratchStack ["tmp".toList] (by decide)).mpr
  exact Or.inl (by decide)

/-- The file `etc/hosts` of an image layer becomes a directory. -/
theorem not_createDir_rejects_hosts :
    ¬ ∀ (fs : Stack) (p : Path), PlainPath p → view fs p ≠ none →
      Rejects (LayerFS.createDir p) fs := by
  intro h
  obtain ⟨e, fs', hrun, -⟩ := h hostsStack ["etc".toList, "hosts".toList] (by decide) (by decide)
  cases hrun

/-! ### Listing a directory -/

/-- A layer whose entries a listing of `d` reads has a regular file at `d`. -/
def FileInTheWay (fs : Stack) (d : Path) : Prop :=
  (∃ c, fs.upper.get? d = some (.file c)) ∨
    fs.upper.get? (opaquePath d) = none ∧ ∃ t ∈ fs.lower, ∃ c, t.get? d = some (.file c)

theorem mergeLower_of_file {lower : List Tree} (acc : LayerFS.Listing)
    (h : ∃ t ∈ lower, ∃ c, t.get? d = some (.file c)) :
    mergeLower d lower acc = .error .ioError := by
  induction lower generalizing acc with
  | nil =>
    obtain ⟨t, ht, -⟩ := h
    cases ht
  | cons t rest ih =>
    rw [mergeLower, Tree.existsAt_eq, ok_bind]
    cases hd : t.get? d with
    | none =>
      -- a layer without the path is passed over
      apply ih
      obtain ⟨u, hu, c, hc⟩ := h
      rcases List.mem_cons.mp hu with rfl | hu
      · rw [hd] at hc
        cases hc
      · exact ⟨u, hu, c, hc⟩
    | some m =>
      cases m with
      | file c => simp [Tree.readDir_file hd, bind, Except.bind]
      | dir =>
        rw [Tree.readDir_dir hd]
        apply ih
        obtain ⟨u, hu, c, hc⟩ := h
        rcases List.mem_cons.mp hu with rfl | hu
        · rw [hd] at hc
          cases hc
        · exact ⟨u, hu, c, hc⟩

/-- A file in the way fails the listing. -/
theorem FileInTheWay.readDir (h : FileInTheWay fs d) : LayerFS.readDir d fs = .error .ioError := by
  rw [LayerFS.readDir, Tree.existsAt_eq, ok_bind, listUpper, Tree.existsAt_eq, ok_bind]
  rcases h with ⟨c, hc⟩ | ⟨hopq, hlower⟩
  · simp [hc, Tree.readDir_file hc, bind, Except.bind]
  · cases hd : fs.upper.get? d with
    | none => simp [hopq, mergeLower_of_file _ hlower, bind, Except.bind, pure, Except.pure]
    | some m =>
      cases m with
      | file c => simp [Tree.readDir_file hd, bind, Except.bind]
      | dir =>
        simp [hopq, Tree.readDir_dir hd, mergeLower_of_file _ hlower, bind, Except.bind, pure,
          Except.pure]

/-- Nothing else does. -/
theorem exists_readDir (h : ¬ FileInTheWay fs d) : ∃ l, LayerFS.readDir d fs = .ok l := by
  have hupper : ∃ acc, listUpper d fs = .ok acc := by
    rw [listUpper, Tree.existsAt_eq]
    cases hd : fs.upper.get? d with
    | none => exact ⟨_, rfl⟩
    | some m =>
      cases m with
      | file c => exact absurd (Or.inl ⟨c, hd⟩) h
      | dir => exact ⟨_, by rw [Tree.readDir_dir hd]; rfl⟩
  obtain ⟨acc, hacc⟩ := hupper
  rw [LayerFS.readDir, Tree.existsAt_eq, ok_bind, hacc, ok_bind]
  cases hopq : fs.upper.get? (opaquePath d) with
  | some m => exact ⟨_, rfl⟩
  | none =>
    have hdirs : ∀ t ∈ fs.lower, ∀ c, t.get? d ≠ some (.file c) :=
      fun t ht c hc => h (Or.inr ⟨hopq, t, ht, c, hc⟩)
    obtain ⟨acc', hacc'⟩ := (mergeLower_isOk acc).mpr hdirs
    exact ⟨_, except_bind_eq_ok.mpr ⟨acc', hacc', rfl⟩⟩

/-- A directory that is shown can be listed exactly if the upper layer has an opaque marker in
it, or no lower layer holds a regular file in its place. -/
theorem readDir_isOk_iff (fs : Stack) (d : Path) (hview : view fs d = some .dir) :
    (∃ l, LayerFS.readDir d fs = .ok l) ↔
      fs.upper.get? (opaquePath d) ≠ none ∨ ∀ t ∈ fs.lower, ∀ c, t.get? d ≠ some (.file c) := by
  constructor
  · rintro ⟨l, hl⟩
    by_contra hfile
    push Not at hfile
    have herror := FileInTheWay.readDir (Or.inr hfile)
    rw [hl] at herror
    cases herror
  · intro h
    apply exists_readDir
    rintro (⟨c, hc⟩ | ⟨hopq, t, ht, c, hc⟩)
    · -- an entry of the upper layer is what is shown
      rw [view_of_upper (hides_of_view hview) hc] at hview
      cases hview
    · exact h.resolve_left (fun hne => hne hopq) t ht c hc

theorem readDir_isOk_iff_etc : ∃ l, LayerFS.readDir ["etc".toList] hostsStack = .ok l := by
  apply (readDir_isOk_iff hostsStack ["etc".toList] (by decide)).mpr
  apply Or.inr
  intro t ht c hc
  have hdir : ∀ t ∈ hostsStack.lower, t.get? ["etc".toList] = some .dir := by decide
  rw [hdir t ht] at hc
  cases hc

/-- A directory put in the place of a file of an image layer. -/
def replacedStack : Stack :=
  ⟨Tree.ofEntries [(["run".toList], .dir)], [Tree.ofEntries [(["run".toList], .file [1])]]⟩

/-- The file below it keeps the directory from being listed. -/
theorem not_readDir_isOk_replaced :
    ¬ ∀ (fs : Stack) (d : Path), view fs d = some .dir → ∃ l, LayerFS.readDir d fs = .ok l := by
  intro h
  obtain ⟨l, hl⟩ := h replacedStack ["run".toList] (by decide)
  cases hl

end Rspacefs
