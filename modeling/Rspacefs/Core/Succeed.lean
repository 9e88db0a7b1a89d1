import Rspacefs.Core.Refuse
import Rspacefs.Core.Pointwise
import Rspacefs.Core.Changes

/-!
# When the changing methods succeed

The other half of the account of failing calls: over trees each changing method of
`LayerFS` returns exactly if a condition on the layers holds, and the condition is
the negation of the one under which the method is refused. What the method then
leaves is said by its lemma on effects.

## Main results

* `returns_createDir_iff`, `returns_createFile_iff`, `returns_copyFile_iff`,
  `returns_removeFile_iff`, `returns_removeDir_iff` — one lemma per method
-/

namespace Rspacefs

open Lib LayerFS

variable {t u : Tree} {fs fs' : Stack} {p q s d : Path} {c : Bytes}

/-! ### Steps on the upper layer -/

theorem returns_onUpper_iff {α : Type} {x : VfsM Tree α} :
    Returns (onUpper x : VfsM Stack α) fs ↔ Returns x fs.upper :=
  Returns.onPart_iff

namespace VfsPath

theorem returns_createDir_iff :
    Returns (VfsPath.createDir p : VfsM Tree Unit) t ↔
      t.get? p = none ∧ t.get? p.dropLast = some .dir := by
  constructor
  · rintro ⟨a, t', h⟩
    obtain ⟨hnone, hparent, -, -⟩ := (createDir_spec t p).ok rfl h
    exact ⟨hnone, hparent⟩
  · rintro ⟨hnone, hparent⟩
    obtain ⟨t', ht'⟩ := run_createDir (ne_nil_of_get?_eq_none hnone) hnone hparent
    exact ⟨(), t', ht'⟩

theorem returns_createFile_iff :
    Returns (VfsPath.createFile p : VfsM Tree Writer) t ↔
      t.get? p ≠ some .dir ∧ t.get? p.dropLast = some .dir := by
  constructor
  · rintro ⟨w, t', h⟩
    obtain ⟨-, hdir, hparent, -, -⟩ := (createFile_spec t p).ok rfl h
    exact ⟨hdir, hparent⟩
  · rintro ⟨hdir, hparent⟩
    have hne : p ≠ [] := by
      rintro rfl
      exact hdir (Tree.get?_root t)
    obtain ⟨t', ht'⟩ := run_createFile hne hdir hparent
    exact ⟨_, t', ht'⟩

end VfsPath

/-- A path whose parent is a directory of the upper layer is not blocked. -/
theorem not_blocked_of_parent (h : fs.upper.get? p.dropLast = some .dir) : ¬ Blocked fs p := by
  rintro ⟨q, c, hq, hfile⟩
  by_cases hqp : q = p.dropLast
  · rw [hqp, h] at hfile
    cases hfile
  · rw [Tree.get?_of_isPrefix hq hqp h] at hfile
    cases hfile

/-- Nor is one that the upper layer holds. -/
theorem not_blocked_of_upper (h : (fs.upper.get? p).isSome) : ¬ Blocked fs p := by
  obtain ⟨n, hn⟩ := Option.isSome_iff_exists.mp h
  by_cases hp : p = []
  · subst hp
    exact not_blocked_of_parent (Tree.get?_root _)
  · exact not_blocked_of_parent (Tree.get?_parent hp hn)

/-- The parents of a path that is not blocked are made. -/
theorem exists_run_ensureUpperParents (h : ¬ Blocked fs p) :
    ∃ fs', (ensureUpperParents p : VfsM Stack Unit).run fs = .ok () fs' ∧
      fs'.upper.get? p.dropLast = some .dir := by
  have hfree : ∀ r b, r <+: p.dropLast → fs.upper.get? ([] ++ r) ≠ some (.file b) :=
    fun r b hr hfile => h ⟨r, b, hr, hfile⟩
  obtain ⟨u, hu, hparent⟩ := run_ensureDirs [] p.dropLast (Tree.get?_root _) hfree
  exact ⟨{ fs with upper := u }, run_onPart_eq_ok.mpr ⟨u, hu, rfl⟩, by simpa using hparent⟩

theorem returns_removeWhiteout_iff :
    Returns (removeWhiteout p : VfsM Stack Unit) fs ↔ fs.upper.get? (whiteoutPath p) ≠ some .dir := by
  constructor
  · intro hreturns hdir
    exact (refuses_removeWhiteout hdir).not_returns hreturns
  · intro hdir
    cases hmark : fs.upper.get? (whiteoutPath p) with
    | none => exact ⟨(), fs, run_removeWhiteout_none hmark⟩
    | some n =>
      cases n with
      | dir => exact absurd hmark hdir
      | file c =>
        have hleaf := PathMap.children_eq_nil.mp (Tree.children_of_file hmark)
        obtain ⟨u, hu⟩ := Tree.dropNode_isSome (Tree.ne_nil_of_file hmark) hleaf
        refine returns_onUpper_iff.mpr ⟨(), u, run_bind_eq_ok.mpr ⟨true, fs.upper, ?_, ?_⟩⟩
        · rw [run_ask_eq_ok, Tree.existsAt_eq, hmark]
          exact ⟨rfl, rfl⟩
        · change Tree.removeFile (whiteoutPath p) fs.upper = _
          rw [Tree.removeFile, hmark, hu]
          rfl

/-- The common beginning of the methods that put an entry at a path. -/
theorem exists_run_clearWhiteout (h : ¬ Shut fs p) :
    ∃ fs', (do ensureUpperParents p; removeWhiteout p : VfsM Stack Unit).run fs = .ok () fs' ∧
      fs'.upper.get? p.dropLast = some .dir := by
  obtain ⟨hblocked, hmark⟩ := not_or.mp h
  obtain ⟨fs₁, hrun, hparent⟩ := exists_run_ensureUpperParents hblocked
  have hgrow := ((ensureUpperParents_spec fs p).ok rfl hrun).2.1
  obtain ⟨⟨⟩, fs₂, hrun₂⟩ := returns_removeWhiteout_iff.mpr (by rwa [hgrow.whiteoutPath])
  refine ⟨fs₂, run_bind_eq_ok.mpr ⟨(), fs₁, hrun, hrun₂⟩, ?_⟩
  have hget := ((removeWhiteout_spec fs₁ p).ok rfl hrun₂).2
  rw [hget, Function.update_of_ne, hparent]
  intro he
  have hlen := congrArg List.length he
  simp [whiteoutPath, splitPath] at hlen

/-- What the beginning leaves at the path itself. -/
theorem get?_of_clearWhiteout (hp : p ≠ [])
    (hrun : (do ensureUpperParents p; removeWhiteout p : VfsM Stack Unit).run fs = .ok () fs') :
    fs'.upper.get? p = fs.upper.get? p := by
  obtain ⟨-, u, hgrow, hget⟩ := (clearWhiteout_spec fs p).ok rfl hrun
  rw [hget, Function.update_of_ne (whiteoutPath_ne hp).symm,
    hgrow.of_not_prefix (not_prefix_dropLast hp)]

/-- A method that begins so: it returns if its end does, and not if the path is shut. -/
theorem returns_clearWhiteout_iff {α : Type} {x : VfsM Stack α}
    (hx : ∀ fs : Stack, fs.upper.get? p.dropLast ≠ some .dir → Refuses x fs) :
    Returns (do ensureUpperParents p; removeWhiteout p; x) fs ↔
      ¬ Shut fs p ∧ ∃ fs', (do ensureUpperParents p; removeWhiteout p : VfsM Stack Unit).run fs =
        .ok () fs' ∧ fs'.upper.get? p.dropLast = some .dir ∧ Returns x fs' := by
  constructor
  · intro hreturns
    have hshut : ¬ Shut fs p := fun h => (h.refuses (hx fs)).not_returns hreturns
    obtain ⟨fs', hrun, hparent⟩ := exists_run_clearWhiteout hshut
    refine ⟨hshut, fs', hrun, hparent, ?_⟩
    rw [← bind_assoc, Returns.bind_iff] at hreturns
    obtain ⟨⟨⟩, fs'', hrun', h⟩ := hreturns
    rw [hrun] at hrun'
    cases hrun'
    exact h
  · rintro ⟨-, fs', hrun, -, h⟩
    rw [← bind_assoc, Returns.bind_iff]
    exact ⟨(), fs', hrun, h⟩

/-! ### The methods -/

theorem returns_createDir_iff :
    Returns (LayerFS.createDir p : VfsM Stack Unit) fs ↔ fs.upper.get? p = none ∧ ¬ Shut fs p := by
  rw [LayerFS.createDir, returns_clearWhiteout_iff fun fs h =>
    Refuses.onUpper (VfsPath.refuses_createDir h)]
  constructor
  · rintro ⟨hshut, fs', hrun, -, h⟩
    obtain ⟨hnone, -⟩ := VfsPath.returns_createDir_iff.mp (returns_onUpper_iff.mp h)
    rw [get?_of_clearWhiteout (ne_nil_of_get?_eq_none hnone) hrun] at hnone
    exact ⟨hnone, hshut⟩
  · rintro ⟨hnone, hshut⟩
    obtain ⟨fs', hrun, hparent⟩ := exists_run_clearWhiteout hshut
    refine ⟨hshut, fs', hrun, hparent, returns_onUpper_iff.mpr ?_⟩
    refine VfsPath.returns_createDir_iff.mpr ⟨?_, hparent⟩
    rw [get?_of_clearWhiteout (ne_nil_of_get?_eq_none hnone) hrun, hnone]

theorem ne_nil_of_not_dir (h : t.get? p ≠ some .dir) : p ≠ [] := by
  rintro rfl
  exact h (Tree.get?_root t)

theorem returns_createFile_iff :
    Returns (LayerFS.createFile p : VfsM Stack Writer) fs ↔
      fs.upper.get? p ≠ some .dir ∧ ¬ Shut fs p := by
  rw [LayerFS.createFile, returns_clearWhiteout_iff fun fs h =>
    Refuses.onUpper (VfsPath.refuses_createFile h)]
  constructor
  · rintro ⟨hshut, fs', hrun, -, h⟩
    obtain ⟨hdir, -⟩ := VfsPath.returns_createFile_iff.mp (returns_onUpper_iff.mp h)
    rw [get?_of_clearWhiteout (ne_nil_of_not_dir hdir) hrun] at hdir
    exact ⟨hdir, hshut⟩
  · rintro ⟨hdir, hshut⟩
    obtain ⟨fs', hrun, hparent⟩ := exists_run_clearWhiteout hshut
    refine ⟨hshut, fs', hrun, hparent, returns_onUpper_iff.mpr ?_⟩
    refine VfsPath.returns_createFile_iff.mpr ⟨?_, hparent⟩
    rwa [get?_of_clearWhiteout (ne_nil_of_not_dir hdir) hrun]

/-- Writing through the handle on a file that was placed. -/
theorem Placed.returns_writeAll (h : Placed fs fs' p (.file [])) (bytes : Bytes) :
    Returns (onUpper (FileSystem.writeAll ⟨p, 0⟩ bytes) : VfsM Stack Unit) fs' := by
  obtain ⟨fs'', hrun, -⟩ := h.run_writeAll bytes
  exact ⟨(), fs'', hrun⟩

theorem returns_thenWrite_createFile_iff {w : Bytes} :
    Returns (thenWrite (LayerFS.createFile p) w) fs ↔
      fs.upper.get? p ≠ some .dir ∧ ¬ Shut fs p := by
  rw [← returns_createFile_iff, thenWrite, Returns.bind_iff]
  constructor
  · rintro ⟨writer, fs', hrun, -⟩
    exact ⟨writer, fs', hrun⟩
  · rintro ⟨writer, fs', hrun⟩
    obtain ⟨rfl, hplaced⟩ := (createFile_spec fs p).ok rfl hrun
    exact ⟨_, fs', hrun, hplaced.returns_writeAll w⟩

/-- Copying a file is creating one with the content shown at the source. -/
theorem run_copyFile (hs : view fs s = some (.file c)) :
    (LayerFS.copyFile s p : VfsM Stack Unit).run fs = (thenWrite (LayerFS.createFile p) c).run fs := by
  obtain ⟨r, hr, hsome, hnode⟩ := resolve_of_view fs s
  rw [hs, Option.isSome_some, Option.isSome_iff_exists] at hsome
  obtain ⟨x, rfl⟩ := hsome
  have hx := hnode x rfl
  rw [hs] at hx
  have hsource : (do orNotFound (← resolve s fs) : VfsResult (Resolved Tree)) = .ok x := by
    rw [hr]
    rfl
  rw [LayerFS.copyFile, EStateM.run_bind, run_ask, hsource]
  change ((ask fun fs : Stack => x.openFile s fs) >>= _ : VfsM Stack Unit).run fs = _
  rw [EStateM.run_bind, run_ask, Resolved.openFile_eq hx]
  change ((ask fun _ => (Node.file c).reader.readToEnd) >>= _ : VfsM Stack Unit).run fs = _
  rw [EStateM.run_bind, run_ask]
  simp only [Node.reader, thenWrite, LayerFS.createFile, bind_assoc]
  rfl

theorem returns_copyFile_iff :
    Returns (LayerFS.copyFile s p : VfsM Stack Unit) fs ↔
      (∃ c, view fs s = some (.file c)) ∧ fs.upper.get? p ≠ some .dir ∧ ¬ Shut fs p := by
  by_cases hs : ∃ c, view fs s = some (.file c)
  · obtain ⟨c, hc⟩ := hs
    have hrun : Returns (LayerFS.copyFile s p : VfsM Stack Unit) fs ↔
        Returns (thenWrite (LayerFS.createFile p) c) fs := by
      rw [Returns, Returns, run_copyFile hc]
    rw [hrun, returns_thenWrite_createFile_iff]
    exact ⟨fun h => ⟨⟨c, hc⟩, h⟩, fun h => h.2⟩
  · constructor
    · intro hreturns
      have hnone : ∀ c, view fs s ≠ some (.file c) := fun c hc => hs ⟨c, hc⟩
      exact absurd hreturns (refuses_copyFile_layer (Or.inl hnone)).not_returns
    · intro h
      exact absurd h.1 hs

/-- The directory a copy goes to is made, unless there is an entry already. -/
theorem makeTarget_spec (fs : Stack) (hp : p ≠ []) :
    Triple (· = fs) (makeTarget p)
      (fun _ fs' => Placed fs fs' p ((fs.upper.get? p).getD .dir)) (fun _ => True) := by
  have hassoc : makeTarget p = (do ensureUpperParents p; removeWhiteout p : VfsM Stack Unit) >>=
      fun _ => onUpper (unlessExists p (VfsPath.createDir p)) := by
    simp [makeTarget]
  rw [hassoc]
  refine Triple.bind_from (R := fun _ fs₁ => fs₁.upper.get? p = fs.upper.get? p ∧
    fs₁.lower = fs.lower ∧ ∃ u, Grows fs.upper u p ∧
      fs₁.upper.get? = Function.update u.get? (whiteoutPath p) none) ?_ ?_
  · rintro _ rfl
    cases hrun : (do ensureUpperParents p; removeWhiteout p : VfsM Stack Unit).run _ with
    | ok _ fs₁ => exact ⟨get?_of_clearWhiteout hp hrun, (clearWhiteout_spec _ p).ok rfl hrun⟩
    | error _ _ => trivial
  rintro _ fs₁ ⟨hentry, hlower, u, hgrow, hmark⟩
  refine (onUpper_spec (Q := fun _ u => u.get? =
    Function.update fs₁.upper.get? p (some ((fs.upper.get? p).getD .dir)))
    (E := fun _ => True) (unlessExists_spec (fun hsome => ?_) fun hnone => ?_)).weaken (fun _ h => h)
    (fun _ fs' h => Placed.of_clear hp hlower hgrow hmark h.1 h.2) fun _ _ => trivial
  · -- the entry that is there stays
    rw [hentry] at hsome
    obtain ⟨n, hn⟩ := Option.isSome_iff_exists.mp hsome
    rw [hn, Option.getD_some, ← hn, ← hentry, Function.update_eq_self]
  · refine (VfsPath.createDir_spec fs₁.upper p).weaken (fun _ h => h) ?_ fun _ _ => trivial
    rintro _ u' ⟨-, -, -, hget⟩
    rw [hget, ← hentry, hnone, Option.getD_none]

theorem returns_makeTarget_iff : Returns (makeTarget p) fs ↔ ¬ Shut fs p := by
  rw [makeTarget, returns_clearWhiteout_iff]
  · constructor
    · exact fun h => h.1
    · intro hshut
      obtain ⟨fs', hrun, hparent⟩ := exists_run_clearWhiteout hshut
      refine ⟨hshut, fs', hrun, hparent, returns_onUpper_iff.mpr ?_⟩
      refine Returns.ask_bind_iff.mpr ⟨_, Tree.existsAt_eq _ _, ?_⟩
      cases hentry : fs'.upper.get? p with
      | some n => exact ⟨(), fs'.upper, rfl⟩
      | none => exact VfsPath.returns_createDir_iff.mpr ⟨hentry, hparent⟩
  · -- without the parent directory there is nothing at the path either
    intro fs hparent
    have hnone : fs.upper.get? p = none := by
      cases hentry : fs.upper.get? p with
      | none => rfl
      | some n =>
        have hne : p ≠ [] := by
          rintro rfl
          exact hparent (Tree.get?_root _)
        exact absurd (Tree.get?_parent hne hentry) hparent
    apply Refuses.onUpper
    refine Refuses.ask_bind fun there hthere => ?_
    rw [Tree.existsAt_eq, hnone] at hthere
    cases hthere
    exact VfsPath.refuses_createDir hparent

theorem returns_createWhiteout_iff :
    Returns (createWhiteout p : VfsM Stack Unit) fs ↔ ¬ Blocked fs p := by
  constructor
  · intro hreturns hblocked
    exact hblocked.refuses_createWhiteout.not_returns hreturns
  · intro hfree
    obtain ⟨fs₁, hrun, hparent⟩ :=
      exists_run_ensureUpperParents (mt blocked_whiteoutPath_iff.mp hfree)
    refine Returns.bind_iff.mpr ⟨(), fs₁, hrun, returns_onUpper_iff.mpr ?_⟩
    refine Returns.ask_bind_iff.mpr ⟨_, Tree.existsAt_eq _ _, ?_⟩
    cases hmark : fs₁.upper.get? (whiteoutPath p) with
    | some n => exact ⟨(), fs₁.upper, rfl⟩
    | none =>
      obtain ⟨w, u, hu⟩ := VfsPath.returns_createFile_iff.mpr ⟨by simp [hmark], hparent⟩
      exact Returns.bind_iff.mpr ⟨w, u, hu, (), u, rfl⟩

/-- Both removals: a whiteout is made only where the upper layer held the entry, or can take
one. -/
theorem returns_removeWith_iff {removeUpper : Path → VfsM Tree Unit}
    (hspec : Triple (· = fs.upper) (removeUpper p)
      (fun _ u => u.get? = Function.update fs.upper.get? p none) (fun _ => True)) :
    Returns (removeWith removeUpper p : VfsM Stack Unit) fs ↔
      (fs.upper.get? p = none ∧ (existsInLower p fs = true → ¬ Blocked fs p)) ∨
        ((fs.upper.get? p).isSome ∧ Returns (removeUpper p) fs.upper) := by
  cases hentry : fs.upper.get? p with
  | none =>
    -- there is nothing to remove, so all that can fail is the whiteout
    have hskip : (onUpper (whenExists p (removeUpper p)) : VfsM Stack Unit).run fs = .ok () fs := by
      refine run_onPart_eq_ok.mpr ⟨fs.upper, ?_, rfl⟩
      rw [whenExists, EStateM.run_bind, run_ask, Tree.existsAt_eq, hentry]
      rfl
    have hrest : Returns (removeWith removeUpper p : VfsM Stack Unit) fs ↔
        Returns (if existsInLower p fs = true then createWhiteout p else pure () :
          VfsM Stack Unit) fs := by
      rw [removeWith, Returns.bind_iff]
      constructor
      · rintro ⟨a, fs', hrun, h⟩
        rw [hskip] at hrun
        cases hrun
        obtain ⟨b, hb, h⟩ := Returns.ask_bind_iff.mp h
        cases hb
        exact h
      · intro h
        exact ⟨(), fs, hskip, Returns.ask_bind_iff.mpr ⟨_, rfl, h⟩⟩
    rw [hrest]
    split
    · rename_i hlower
      rw [returns_createWhiteout_iff]
      simp [hlower]
    · rename_i hlower
      simp only [hlower, Bool.false_eq_true, false_implies, and_true, true_or, iff_true]
      exact ⟨(), fs, rfl⟩
  | some n =>
    -- the entry had its parents, so the whiteout behind the removal cannot fail
    simp only [reduceCtorEq, false_and, Option.isSome_some, true_and, false_or]
    constructor
    · intro h
      obtain ⟨a, fs₁, hrun, -⟩ := Returns.bind_iff.mp h
      have hwhen : Returns (whenExists p (removeUpper p)) fs.upper :=
        returns_onUpper_iff.mp ⟨a, fs₁, hrun⟩
      obtain ⟨b, hb, h⟩ := Returns.ask_bind_iff.mp hwhen
      rw [Tree.existsAt_eq, hentry] at hb
      cases hb
      exact h
    · rintro ⟨a, u, hu⟩
      have hget := hspec.ok rfl hu
      have hwhen : (onUpper (whenExists p (removeUpper p)) : VfsM Stack Unit).run fs =
          .ok () { fs with upper := u } := by
        refine run_onPart_eq_ok.mpr ⟨u, run_bind_eq_ok.mpr ⟨true, fs.upper, ?_, hu⟩, rfl⟩
        rw [run_ask_eq_ok, Tree.existsAt_eq, hentry]
        exact ⟨rfl, rfl⟩
      refine Returns.bind_iff.mpr ⟨(), _, hwhen, Returns.ask_bind_iff.mpr ⟨_, rfl, ?_⟩⟩
      split
      · -- the parent of what was removed can take the whiteout
        apply returns_createWhiteout_iff.mpr
        rintro ⟨q, c, hq, hfile⟩
        have hfree : ¬ Blocked fs p := not_blocked_of_upper (by simp [hentry])
        apply hfree
        refine ⟨q, c, hq, ?_⟩
        change u.get? q = _ at hfile
        rw [hget] at hfile
        by_cases hqp : q = p
        · subst hqp
          simp at hfile
        · rwa [Function.update_of_ne hqp] at hfile
      · exact ⟨(), _, rfl⟩

namespace Tree

theorem returns_removeFile_iff :
    Returns (FileSystem.removeFile p : VfsM Tree Unit) t ↔ ∃ c, t.get? p = some (.file c) := by
  constructor
  · rintro ⟨a, t', h⟩
    exact ((removeFile_spec t p).ok rfl h).1
  · rintro ⟨c, hc⟩
    obtain ⟨t', ht'⟩ := dropNode_isSome (ne_nil_of_file hc) (PathMap.children_eq_nil.mp (children_of_file hc))
    refine ⟨(), t', ?_⟩
    change removeFile p t = _
    rw [removeFile, hc, ht']
    rfl

theorem returns_removeDir_iff :
    Returns (FileSystem.removeDir p : VfsM Tree Unit) t ↔
      t.get? p = some .dir ∧ p ≠ [] ∧ t.children p = [] := by
  constructor
  · rintro ⟨a, t', h⟩
    obtain ⟨hdir, hne, hempty, -⟩ := (removeDir_spec t p).ok rfl h
    exact ⟨hdir, hne, PathMap.children_eq_nil.mpr hempty⟩
  · rintro ⟨hdir, hne, hempty⟩
    obtain ⟨t', ht'⟩ := dropNode_isSome hne (PathMap.children_eq_nil.mp hempty)
    refine ⟨(), t', ?_⟩
    change removeDir p t = _
    rw [removeDir, hdir, ht']
    rfl

end Tree

theorem returns_removeFile_iff :
    Returns (LayerFS.removeFile p : VfsM Stack Unit) fs ↔
      (fs.upper.get? p = none ∧ (existsInLower p fs = true → ¬ Blocked fs p)) ∨
        ∃ c, fs.upper.get? p = some (.file c) := by
  rw [LayerFS.removeFile, returns_removeWith_iff
    ((Tree.removeFile_spec fs.upper p).weaken (fun _ h => h) (fun _ _ h => h.2) fun _ _ => trivial),
    Tree.returns_removeFile_iff]
  apply or_congr_right
  constructor
  · rintro ⟨-, h⟩
    exact h
  · rintro ⟨c, hc⟩
    exact ⟨by simp [hc], c, hc⟩

theorem returns_removeDir_iff :
    Returns (LayerFS.removeDir p : VfsM Stack Unit) fs ↔
      (fs.upper.get? p = none ∧ (existsInLower p fs = true → ¬ Blocked fs p)) ∨
        fs.upper.get? p = some .dir ∧ p ≠ [] ∧ fs.upper.children p = [] := by
  rw [LayerFS.removeDir, returns_removeWith_iff
    ((Tree.removeDir_spec fs.upper p).weaken (fun _ h => h) (fun _ _ h => h.2.2.2)
      fun _ _ => trivial), Tree.returns_removeDir_iff]
  apply or_congr_right
  constructor
  · rintro ⟨-, h⟩
    exact h
  · intro h
    exact ⟨by simp [h.1], h⟩

end Rspacefs
