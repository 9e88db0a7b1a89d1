import Rspacefs.Core.Update

/-!
# What the mutators do to the upper layer

Every changing method of `LayerFS` is a short sequence of calls on the upper
layer: make the missing parent directories, drop or add one whiteout marker, then
the entry itself. Here each method gets one lemma that says what it leaves in the
upper layer, both when it returns and when it fails part way; the lower layers
are never touched.

## Main definitions

* `Grows` — the upper layer gained directories above a path, and nothing else
* `Touched` — it also changed at the path and at its whiteout marker
* `Pointwise` — the merged view changed at one path only

## Main results

* `ensureUpperParents_spec`, `removeWhiteout_spec`, `createWhiteout_spec` — the steps
* `createFile_spec`, `createDir_spec`, `removeFile_spec`, `removeDir_spec`, … — the methods
* `view_of_touched` — the merged view elsewhere is unchanged when the directories
  gained were visible already
-/

namespace Rspacefs

open Lib LayerFS

variable {t t' u u' u'' : Tree} {fs fs' : Stack} {p q r : Path}

/-! ### Gained directories -/

/-- `u'` is `u` with some missing directories above `p` added. -/
def Grows (u u' : Tree) (p : Path) : Prop :=
  ∀ q, u'.get? q = u.get? q ∨
    u.get? q = none ∧ u'.get? q = some .dir ∧ q ≠ [] ∧ q <+: p.dropLast

theorem Grows.refl (u : Tree) (p : Path) : Grows u u p := fun _ => Or.inl rfl

theorem Grows.trans (h : Grows u u' p) (h' : Grows u' u'' p) : Grows u u'' p := by
  intro q
  rcases h q with he | ⟨hnone, hdir, hne, hpre⟩
  · rw [← he]
    exact h' q
  · rcases h' q with he' | ⟨hnone', -, -, -⟩
    · exact Or.inr ⟨hnone, he'.trans hdir, hne, hpre⟩
    · rw [hdir] at hnone'
      cases hnone'

theorem Grows.isSome (h : Grows u u' p) (hq : (u.get? q).isSome) : u'.get? q = u.get? q := by
  rcases h q with he | ⟨hnone, -⟩
  · exact he
  · simp [hnone] at hq

/-- Gained directories lie above the path. -/
theorem Grows.of_not_prefix (h : Grows u u' p) (hq : ¬ q <+: p.dropLast) :
    u'.get? q = u.get? q :=
  (h q).resolve_right fun hc => hq hc.2.2.2

theorem Grows.update {n : Node} (hdir : n = .dir) (hnone : u.get? q = none) (hne : q ≠ [])
    (hpre : q <+: p.dropLast) (h : u'.get? = Function.update u.get? q (some n)) : Grows u u' p := by
  intro r
  rw [h]
  by_cases hr : r = q
  · subst hr
    exact Or.inr ⟨hnone, by simp [hdir], hne, hpre⟩
  · exact Or.inl (Function.update_of_ne hr _ _)

namespace VfsPath

theorem createDir_spec (t : Tree) (p : Path) :
    Triple (· = t) (VfsPath.createDir p : VfsM Tree Unit)
      (fun _ t' => t.get? p = none ∧ t.get? p.dropLast = some .dir ∧ p ≠ [] ∧
        t'.get? = Function.update t.get? p (some .dir)) (· = t) := by
  refine Triple.bind_from (R := fun _ s => s = t) (Triple.ask ?_ ?_) ?_
  · rintro _ _ rfl -
    rfl
  · rintro _ rfl
    rfl
  · rintro _ _ rfl
    exact Tree.createDir_spec _ p

theorem createFile_spec (t : Tree) (p : Path) :
    Triple (· = t) (VfsPath.createFile p : VfsM Tree Writer)
      (fun w t' => w = ⟨p, 0⟩ ∧ t.get? p ≠ some .dir ∧ t.get? p.dropLast = some .dir ∧ p ≠ [] ∧
        t'.get? = Function.update t.get? p (some (.file []))) (· = t) := by
  refine Triple.bind_from (R := fun _ s => s = t) (Triple.ask ?_ ?_) ?_
  · rintro _ _ rfl -
    rfl
  · rintro _ rfl
    rfl
  · rintro _ _ rfl
    exact Tree.createFile_spec _ p

end VfsPath

/-! ### Conditional calls -/

theorem unlessExists_spec {x : VfsM Tree Unit} {Q : Unit → Tree → Prop} {E : Tree → Prop}
    (hthere : (t.get? p).isSome → Q () t) (hmissing : t.get? p = none → Triple (· = t) x Q E) :
    Triple (· = t) (unlessExists p x) Q E := by
  rintro t rfl
  cases h : t.get? p with
  | some n => simpa [unlessExists, run_ask, h] using hthere (by simp [h])
  | none => simpa [unlessExists, run_ask, h] using hmissing h t rfl

theorem whenExists_spec {x : VfsM Tree Unit} {Q : Unit → Tree → Prop} {E : Tree → Prop}
    (hmissing : t.get? p = none → Q () t) (hthere : (t.get? p).isSome → Triple (· = t) x Q E) :
    Triple (· = t) (whenExists p x) Q E := by
  rintro t rfl
  cases h : t.get? p with
  | some n => simpa [whenExists, run_ask, h] using hthere (by simp [h]) t rfl
  | none => simpa [whenExists, run_ask, h] using hmissing h

/-- The directories made on the way down to `current/parts`. -/
theorem ensureDirs_spec (t : Tree) (current : Path) (parts : List Name) (p : Path)
    (hp : current ++ parts <+: p.dropLast) :
    Triple (· = t) (ensureDirs current parts : VfsM Tree Unit)
      (fun _ t' => Grows t t' p ∧ ∀ r, r <+: parts → r ≠ [] → (t'.get? (current ++ r)).isSome)
      (fun t' => Grows t t' p) := by
  induction parts generalizing t current with
  | nil =>
    refine Triple.pure () ?_
    rintro _ rfl
    exact ⟨Grows.refl _ _, fun r hr hne => absurd (List.prefix_nil.mp hr) hne⟩
  | cons part rest ih =>
    have hrest : current ++ [part] ++ rest <+: p.dropLast := by simpa using hp
    have hdir : current ++ [part] <+: p.dropLast := (List.prefix_append _ _).trans hrest
    -- the first directory is there afterwards, found or made
    have hfirst : Triple (· = t)
        (unlessExists (current ++ [part]) (VfsPath.createDir (current ++ [part])) : VfsM Tree Unit)
        (fun _ t' => Grows t t' p ∧ (t'.get? (current ++ [part])).isSome)
        (fun t' => Grows t t' p) := by
      refine unlessExists_spec (fun hsome => ⟨Grows.refl _ _, hsome⟩) fun _ => ?_
      refine (VfsPath.createDir_spec t (current ++ [part])).weaken (fun _ h => h) ?_ ?_
      · rintro _ t' ⟨hnone, -, hne, hget⟩
        exact ⟨Grows.update rfl hnone hne hdir hget, by simp [hget]⟩
      · rintro _ rfl
        exact Grows.refl _ _
    refine Triple.bind_from hfirst ?_
    rintro _ t₁ ⟨hgrow, hsome⟩
    refine (ih t₁ (current ++ [part]) hrest).weaken (fun _ h => h) ?_ ?_
    · rintro _ t' ⟨hgrow', hall⟩
      refine ⟨hgrow.trans hgrow', fun r hr hne => ?_⟩
      cases r with
      | nil => exact absurd rfl hne
      | cons x r =>
        obtain ⟨rfl, hr'⟩ := List.cons_prefix_cons.mp hr
        by_cases hr0 : r = []
        · subst hr0
          rw [hgrow'.isSome hsome]
          exact hsome
        · simpa using hall r hr' hr0
    · exact fun t' hgrow' => hgrow.trans hgrow'

/-! ### Steps on the upper layer of a stack -/

/-- A call on the upper layer leaves the lower layers alone. -/
theorem onUpper_spec {α : Type} {x : VfsM Tree α} {Q : α → Tree → Prop} {E : Tree → Prop}
    (h : Triple (· = fs.upper) x Q E) :
    Triple (· = fs) (onUpper x : VfsM Stack α)
      (fun a fs' => fs'.lower = fs.lower ∧ Q a fs'.upper)
      (fun fs' => fs'.lower = fs.lower ∧ E fs'.upper) :=
  Triple.onPart fs (h.weaken (fun _ h => h) (fun _ _ hQ => ⟨rfl, hQ⟩) (fun _ hE => ⟨rfl, hE⟩))

theorem ensureUpperParents_spec (fs : Stack) (p : Path) :
    Triple (· = fs) (ensureUpperParents p)
      (fun _ fs' => fs'.lower = fs.lower ∧ Grows fs.upper fs'.upper p ∧
        ∀ q, q <+: p.dropLast → (fs'.upper.get? q).isSome)
      (fun fs' => fs'.lower = fs.lower ∧ Grows fs.upper fs'.upper p) := by
  refine onUpper_spec
    (Q := fun _ u => Grows fs.upper u p ∧ ∀ q, q <+: p.dropLast → (u.get? q).isSome)
    ((ensureDirs_spec fs.upper [] p.dropLast p (by simp)).weaken (fun _ h => h) ?_ (fun _ h => h))
  rintro _ u ⟨hgrow, hall⟩
  refine ⟨hgrow, fun q hq => ?_⟩
  by_cases hne : q = []
  · subst hne
    simp [Tree.get?_root]
  · exact hall q hq hne

theorem removeWhiteout_spec (fs : Stack) (p : Path) :
    Triple (· = fs) (removeWhiteout p)
      (fun _ fs' => fs'.lower = fs.lower ∧
        fs'.upper.get? = Function.update fs.upper.get? (whiteoutPath p) none)
      (fun fs' => fs'.lower = fs.lower ∧ fs'.upper = fs.upper) := by
  refine onUpper_spec
    (Q := fun _ u => u.get? = Function.update fs.upper.get? (whiteoutPath p) none)
    (E := (· = fs.upper)) (whenExists_spec (fun hnone => ?_) fun _ => ?_)
  · rw [← hnone, Function.update_eq_self]
  · exact (Tree.removeFile_spec fs.upper (whiteoutPath p)).weaken (fun _ h => h)
      (fun _ _ h => h.2) (fun _ h => h)

theorem createWhiteout_spec (fs : Stack) (p : Path) :
    Triple (· = fs) (createWhiteout p)
      (fun _ fs' => fs'.lower = fs.lower ∧ (fs'.upper.get? (whiteoutPath p)).isSome ∧
        ∀ q, q ≠ whiteoutPath p → fs'.upper.get? q = fs.upper.get? q ∨
          fs.upper.get? q = none ∧ fs'.upper.get? q = some .dir ∧ q ≠ [] ∧ q <+: p.dropLast)
      (fun fs' => fs'.lower = fs.lower ∧ Grows fs.upper fs'.upper p) := by
  have hgrows : ∀ u u' : Tree, Grows u u' (whiteoutPath p) → Grows u u' p := by
    intro u u' h q
    have := h q
    rwa [whiteoutPath_dropLast] at this
  refine Triple.bind_from ((ensureUpperParents_spec fs (whiteoutPath p)).weaken (fun _ h => h)
    (fun _ _ h => h) (fun fs' h => ⟨h.1, hgrows _ _ h.2⟩)) ?_
  rintro _ fs₁ ⟨hlower, hgrow, -⟩
  have hgrow := hgrows _ _ hgrow
  -- a marker that is there is left as it is
  have hmark : Triple (· = fs₁.upper)
      (unlessExists (whiteoutPath p) (do let _ ← VfsPath.createFile (whiteoutPath p)))
      (fun _ u => (u.get? (whiteoutPath p)).isSome ∧
        ∀ q, q ≠ whiteoutPath p → u.get? q = fs₁.upper.get? q)
      (fun u => u = fs₁.upper) := by
    refine unlessExists_spec (fun hsome => ⟨hsome, fun _ _ => rfl⟩) fun _ => ?_
    refine Triple.bind_from (VfsPath.createFile_spec fs₁.upper (whiteoutPath p)) ?_
    rintro _ u ⟨-, -, -, -, hget⟩
    refine Triple.pure () ?_
    rintro _ rfl
    exact ⟨by simp [hget], fun q hq => by rw [hget, Function.update_of_ne hq]⟩
  refine (onUpper_spec hmark).weaken (fun _ h => h) ?_ ?_
  · rintro _ fs' ⟨hlower', hsome, heq⟩
    refine ⟨hlower'.trans hlower, hsome, fun q hq => ?_⟩
    rw [heq q hq]
    exact hgrow q
  · rintro fs' ⟨hlower', hupper⟩
    exact ⟨hlower'.trans hlower, hupper ▸ hgrow⟩

/-! ### The methods -/

/-- `u'` differs from `u` at `p`, at the whiteout marker of `p`, and by directories
gained above `p`. -/
def Touched (u u' : Tree) (p : Path) : Prop :=
  ∀ q, q ≠ p → q ≠ whiteoutPath p → u'.get? q = u.get? q ∨
    u.get? q = none ∧ u'.get? q = some .dir ∧ q ≠ [] ∧ q <+: p.dropLast

/-- Gaining directories, losing the marker and then changing the entry. -/
theorem touched_of_grows_update {u₁ u₂ : Tree} {n : Option Node} (hgrow : Grows u u₁ p)
    (hmark : u₂.get? = Function.update u₁.get? (whiteoutPath p) none)
    (hget : u'.get? = Function.update u₂.get? p n) : Touched u u' p := by
  intro q hqp hqw
  rw [hget, Function.update_of_ne hqp, hmark, Function.update_of_ne hqw]
  exact hgrow q

theorem whiteoutPath_inj (hp : p ≠ []) (hq : q ≠ []) (h : whiteoutPath p = whiteoutPath q) :
    p = q := by
  obtain ⟨d, n, rfl⟩ := (List.eq_nil_or_concat' p).resolve_left hp
  obtain ⟨e, m, rfl⟩ := (List.eq_nil_or_concat' q).resolve_left hq
  rw [whiteoutPath_concat, whiteoutPath_concat] at h
  obtain ⟨rfl, hname⟩ := List.append_inj' h rfl
  simpa using hname

theorem whiteoutPath_ne (hp : p ≠ []) : whiteoutPath p ≠ p := by
  obtain ⟨d, n, rfl⟩ := (List.eq_nil_or_concat' p).resolve_left hp
  intro h
  have hlen : (whiteoutPrefix ++ n).length = n.length := by
    rw [whiteoutPath_concat] at h
    simpa using congrArg (fun l => (l.getLast?.map List.length)) h
  simp only [whiteoutPrefix, List.length_append, List.length_cons, List.length_nil] at hlen
  omega

/-- The common beginning of `create_file`, `create_dir` and `copy_file`: afterwards
the parent is there and the marker is gone. -/
theorem clearWhiteout_spec (fs : Stack) (p : Path) :
    Triple (· = fs) (do ensureUpperParents p; removeWhiteout p : VfsM Stack Unit)
      (fun _ fs' => fs'.lower = fs.lower ∧ ∃ u, Grows fs.upper u p ∧
        fs'.upper.get? = Function.update u.get? (whiteoutPath p) none)
      (fun _ => True) := by
  refine Triple.bind_from ((ensureUpperParents_spec fs p).weaken (fun _ h => h) (fun _ _ h => h)
    (fun _ _ => trivial)) ?_
  rintro _ fs₁ ⟨hlower, hgrow, -⟩
  refine (removeWhiteout_spec fs₁ p).weaken (fun _ h => h) ?_ (fun _ _ => trivial)
  rintro _ fs₂ ⟨hlower', hmark⟩
  exact ⟨hlower'.trans hlower, fs₁.upper, hgrow, hmark⟩

/-- What a method that puts an entry at `p` leaves in the upper layer. -/
structure Placed (fs fs' : Stack) (p : Path) (n : Node) : Prop where
  lower : fs'.lower = fs.lower
  touched : Touched fs.upper fs'.upper p
  entry : fs'.upper.get? p = some n
  marker : fs'.upper.get? (whiteoutPath p) = none
  ne_nil : p ≠ []

theorem Placed.of_clear {fs₁ : Stack} {n : Node} (hne : p ≠ []) (hlower : fs₁.lower = fs.lower)
    (hgrow : Grows fs.upper u p)
    (hmark : fs₁.upper.get? = Function.update u.get? (whiteoutPath p) none)
    (hlower' : fs'.lower = fs₁.lower)
    (hget : fs'.upper.get? = Function.update fs₁.upper.get? p (some n)) : Placed fs fs' p n where
  lower := hlower'.trans hlower
  touched := touched_of_grows_update hgrow hmark hget
  entry := by simp [hget]
  marker := by simp [hget, Function.update_of_ne (whiteoutPath_ne hne), hmark]
  ne_nil := hne

/-- Writing through a handle on a placed file. -/
theorem Placed.writeAll {c : Bytes} (h : Placed fs fs' p (.file c)) (position : Nat)
    (bytes : Bytes) :
    Triple (· = fs') (onUpper (FileSystem.writeAll ⟨p, position⟩ bytes) : VfsM Stack Unit)
      (fun _ fs'' => Placed fs fs'' p (.file (splice c position bytes))) (fun _ => True) := by
  refine (onUpper_spec (Tree.writeAll_spec fs'.upper ⟨p, position⟩ bytes)).weaken (fun _ h => h) ?_
    (fun _ _ => trivial)
  rintro _ fs'' ⟨hlower, c', hc', hget⟩
  rw [h.entry] at hc'
  cases hc'
  refine ⟨hlower.trans h.lower, fun q hqp hqw => ?_, by simp [hget], ?_, h.ne_nil⟩
  · rw [hget, Function.update_of_ne hqp]
    exact h.touched q hqp hqw
  · rw [hget, Function.update_of_ne (whiteoutPath_ne h.ne_nil)]
    exact h.marker

theorem createDir_spec (fs : Stack) (p : Path) :
    Triple (· = fs) (LayerFS.createDir p) (fun _ fs' => Placed fs fs' p .dir)
      (fun _ => True) := by
  have hassoc : (LayerFS.createDir p : VfsM Stack Unit) =
      (do ensureUpperParents p; removeWhiteout p) >>= fun _ => onUpper (VfsPath.createDir p) := by
    simp [LayerFS.createDir]
  rw [hassoc]
  refine Triple.bind_from (clearWhiteout_spec fs p) ?_
  rintro _ fs₁ ⟨hlower, u, hgrow, hmark⟩
  refine (onUpper_spec (VfsPath.createDir_spec fs₁.upper p)).weaken (fun _ h => h) ?_
    (fun _ _ => trivial)
  rintro _ fs' ⟨hlower', -, -, hne, hget⟩
  exact Placed.of_clear hne hlower hgrow hmark hlower' hget

theorem createFile_spec (fs : Stack) (p : Path) :
    Triple (· = fs) (LayerFS.createFile p)
      (fun w fs' => w = ⟨p, 0⟩ ∧ Placed fs fs' p (.file [])) (fun _ => True) := by
  have hassoc : (LayerFS.createFile p : VfsM Stack Writer) =
      (do ensureUpperParents p; removeWhiteout p) >>= fun _ => onUpper (VfsPath.createFile p) := by
    simp [LayerFS.createFile]
  rw [hassoc]
  refine Triple.bind_from (clearWhiteout_spec fs p) ?_
  rintro _ fs₁ ⟨hlower, u, hgrow, hmark⟩
  refine (onUpper_spec (VfsPath.createFile_spec fs₁.upper p)).weaken (fun _ h => h) ?_
    (fun _ _ => trivial)
  rintro _ fs' ⟨hlower', rfl, -, -, hne, hget⟩
  exact ⟨rfl, Placed.of_clear hne hlower hgrow hmark hlower' hget⟩

/-- Placing a file and writing its contents: the end of `copy_file` and `copy_up`. -/
theorem writeNew_spec {bytes : Bytes} {x : VfsM Stack Writer}
    (hx : Triple (· = fs) x (fun w fs' => w = ⟨p, 0⟩ ∧ Placed fs fs' p (.file [])) (fun _ => True)) :
    Triple (· = fs) (x >>= fun w => onUpper (FileSystem.writeAll w bytes))
      (fun _ fs' => Placed fs fs' p (.file bytes)) (fun _ => True) := by
  refine Triple.bind_from hx ?_
  rintro _ fs₁ ⟨rfl, hplaced⟩
  simpa using hplaced.writeAll 0 bytes

/-- Reading a whole file through a resolution: only a file of the view gets through. -/
theorem readSource_spec {α : Type} {k : Bytes → VfsM Stack α} {Q : α → Stack → Prop}
    {E : Stack → Prop} (s : Path) (hE : E fs)
    (h : ∀ c, view fs s = some (.file c) → Triple (· = fs) (k c) Q E) :
    Triple (· = fs) (do
      let source ← ask fun fs : Stack => do orNotFound (← resolve s fs)
      let reader ← ask fun fs : Stack => source.openFile s fs
      let data ← ask fun _ => reader.readToEnd
      k data) Q E := by
  obtain ⟨r, hr, hsome, hnode⟩ := resolve_of_view fs s
  have hfail : ∀ fs', fs' = fs → E fs' := by
    rintro _ rfl
    exact hE
  refine Triple.bind_from (R := fun source fs' => fs = fs' ∧ r = some source)
    (Triple.ask ?_ hfail) ?_
  · rintro _ source rfl hres
    rw [hr] at hres
    cases r with
    | none => cases hres
    | some x => exact ⟨rfl, congrArg some (Except.ok.inj hres)⟩
  rintro source _ ⟨rfl, rfl⟩
  have hsource := hnode source rfl
  obtain ⟨node, hview⟩ := Option.isSome_iff_exists.mp hsome.symm
  rw [hview] at hsource
  -- the reader is the one of the entry shown
  refine Triple.bind_from (R := fun reader fs' => fs = fs' ∧ source.openFile s fs = .ok reader)
    (Triple.ask ?_ hfail) ?_
  · rintro _ reader rfl hopen
    exact ⟨rfl, hopen⟩
  rintro reader _ ⟨rfl, hopen⟩
  rw [Resolved.openFile_eq hsource, Except.ok.injEq] at hopen
  subst hopen
  -- and reading it to the end fails on a directory
  refine Triple.bind_from (R := fun data fs' => fs = fs' ∧ node = .file data)
    (Triple.ask ?_ hfail) ?_
  · rintro _ data rfl hread
    cases node with
    | dir => cases hread
    | file c => exact ⟨rfl, congrArg Node.file (Except.ok.inj hread)⟩
  rintro data _ ⟨rfl, rfl⟩
  exact h data hview

theorem copyFile_spec (fs : Stack) (s p : Path) :
    Triple (· = fs) (LayerFS.copyFile s p)
      (fun _ fs' => ∃ c, view fs s = some (.file c) ∧ Placed fs fs' p (.file c))
      (fun _ => True) := by
  refine readSource_spec s trivial fun c hc => ?_
  have hassoc : (do
        ensureUpperParents p
        removeWhiteout p
        let writer ← onUpper (VfsPath.createFile p)
        onUpper (FileSystem.writeAll writer c) : VfsM Stack Unit) =
      LayerFS.createFile p >>= fun w => onUpper (FileSystem.writeAll w c) := by
    simp [LayerFS.createFile]
  rw [hassoc]
  exact (writeNew_spec (createFile_spec fs p)).weaken (fun _ h => h)
    (fun _ _ h => ⟨c, hc, h⟩) (fun _ h => h)

/-! ### Copy-up and append -/

/-- The end of `copy_up` for a source that reads as `n`. -/
def placeNode (p : Path) : Node → VfsM Stack Unit
  | .dir => onUpper (VfsPath.createDir p)
  | .file c => do
    let writer ← onUpper (VfsPath.createFile p)
    onUpper (FileSystem.writeAll writer c)

/-- A path that the upper layer does not hold resolves to a lower layer, which
reads the same whatever happens to the upper layer. -/
theorem resolve_lower (hupper : fs.upper.get? p = none) {n : Node} (hview : view fs p = some n) :
    ∃ i t, resolve p fs = .ok (some (.lower i t)) ∧ t.get? p = some n := by
  obtain ⟨r, hr, hsome, hnode⟩ := resolve_of_view fs p
  rw [hview, Option.isSome_some, Option.isSome_iff_exists] at hsome
  obtain ⟨x, rfl⟩ := hsome
  have hx := hnode x rfl
  rw [hview] at hx
  cases x with
  | upper =>
    rw [Resolved.node, hupper] at hx
    cases hx
  | lower i t => exact ⟨i, t, hr, hx⟩

theorem run_copyUp (hupper : fs.upper.get? p = none) {n : Node} (hview : view fs p = some n) :
    (copyUp p).run fs = (do ensureUpperParents p; placeNode p n : VfsM Stack Unit).run fs := by
  obtain ⟨i, t, hres, ht⟩ := resolve_lower hupper hview
  have hsource : (do orNotFound (← resolve p fs) : VfsResult (Resolved Tree)) =
      .ok (.lower i t) := by
    rw [hres]
    rfl
  rw [copyUp, EStateM.run_bind, run_ask, hsource]
  refine congrArg (fun k => (ensureUpperParents p >>= k : VfsM Stack Unit).run fs) ?_
  funext _
  have hnode : ∀ fs₁ : Stack, (Resolved.lower i t).node p fs₁ = some n := fun _ => ht
  have hmetadata : ∀ fs₁ : Stack, (Resolved.lower i t).metadata p fs₁ = .ok ⟨n.fileType, n.len⟩ :=
    fun fs₁ => Resolved.metadata_eq (hnode fs₁)
  have hopen : ∀ fs₁ : Stack, (Resolved.lower i t).openFile p fs₁ = .ok n.reader :=
    fun fs₁ => Resolved.openFile_eq (hnode fs₁)
  funext fs₁
  change ((ask fun fs₁ : Stack => (Resolved.lower i t).metadata p fs₁) >>= _ :
    VfsM Stack Unit).run fs₁ = (placeNode p n).run fs₁
  rw [EStateM.run_bind, run_ask, hmetadata]
  cases n with
  | dir => rfl
  | file c =>
    simp only [Node.fileType, reduceCtorEq, if_false, placeNode]
    rw [EStateM.run_bind, run_ask, hopen]
    rfl

/-- A visible file of the upper layer counts as placed. -/
theorem Placed.of_upper {n : Node} (hne : p ≠ []) (hview : view fs p = some n)
    (hupper : (fs.upper.get? p).isSome) : Placed fs fs p n where
  lower := rfl
  touched := fun _ _ _ => Or.inl rfl
  entry := by
    obtain ⟨m, hm⟩ := Option.isSome_iff_exists.mp hupper
    rw [hm, ← view_of_upper (hides_of_view hview) hm, hview]
  marker := Tree.hides_eq_false.mp (hides_of_view hview)
  ne_nil := hne

theorem Placed.append {c bytes : Bytes} (h : Placed fs fs' p (.file c)) :
    Triple (· = fs') (do
        let w ← onUpper (FileSystem.appendFile p)
        onUpper (FileSystem.writeAll w bytes) : VfsM Stack Unit)
      (fun _ fs'' => Placed fs fs'' p (.file (c ++ bytes))) (fun _ => True) := by
  refine Triple.bind_from ((onUpper_spec (Tree.appendFile_spec fs'.upper p)).weaken (fun _ h => h)
    (fun _ _ h => h) (fun _ _ => trivial)) ?_
  rintro w fs₁ ⟨hlower, hupper, c', hc', rfl⟩
  rw [h.entry] at hc'
  cases hc'
  have hsame : fs₁ = fs' := by
    cases fs₁
    cases fs'
    simp_all
  subst hsame
  simpa using h.writeAll c.length bytes

theorem Grows.whiteoutPath (h : Grows u u' p) :
    u'.get? (whiteoutPath p) = u.get? (whiteoutPath p) := by
  refine h.of_not_prefix fun hpre => ?_
  have hlen := hpre.length_le
  simp only [Rspacefs.whiteoutPath, splitPath, List.length_append, List.length_cons,
    List.length_nil] at hlen
  omega

/-- Copy-up of a visible file that only lower layers hold. -/
theorem copyUp_spec {c : Bytes} (hne : p ≠ []) (hview : view fs p = some (.file c))
    (hupper : fs.upper.get? p = none) :
    Triple (· = fs) (copyUp p) (fun _ fs' => Placed fs fs' p (.file c)) (fun _ => True) := by
  intro fs₀ hfs
  subst hfs
  rw [run_copyUp hupper hview]
  refine Triple.bind_from (E := fun _ => True) (Q := fun _ fs' => Placed fs₀ fs' p (.file c))
    ((ensureUpperParents_spec fs₀ p).weaken (fun _ h => h) (fun _ _ h => h)
      (fun _ _ => trivial)) ?_ fs₀ rfl
  rintro _ fs₁ ⟨hlower, hgrow, -⟩
  have hmark : fs₁.upper.get? (whiteoutPath p) = none :=
    hgrow.whiteoutPath.trans (Tree.hides_eq_false.mp (hides_of_view hview))
  refine Triple.bind_from ((onUpper_spec (VfsPath.createFile_spec fs₁.upper p)).weaken
    (fun _ h => h) (fun _ _ h => h) (fun _ _ => trivial)) ?_
  rintro _ fs₂ ⟨hlower', rfl, -, -, -, hget⟩
  have hplaced : Placed fs₀ fs₂ p (.file []) :=
    Placed.of_clear hne hlower hgrow (by rw [← hmark, Function.update_eq_self]) hlower' hget
  simpa using hplaced.writeAll 0 c

/-- The two ways through `append_file`: the file is in the upper layer already, or
it is visible in a lower layer and copied up. -/
theorem run_appendFile (fs : Stack) (p : Path) :
    (LayerFS.appendFile p).run fs =
      if (fs.upper.get? p).isSome then (onUpper (FileSystem.appendFile p)).run fs
      else if (view fs p).isSome then
        (copyUp p >>= fun _ => onUpper (FileSystem.appendFile p)).run fs
      else .error .fileNotFound fs := by
  obtain ⟨r, hr, hsome, -⟩ := resolve_of_view fs p
  rw [LayerFS.appendFile, EStateM.run_bind, run_ask, Tree.existsAt_eq]
  cases (fs.upper.get? p).isSome with
  | true => rfl
  | false =>
    change ((ask fun fs : Stack => resolve p fs) >>= _ : VfsM Stack Writer).run fs = _
    rw [EStateM.run_bind, run_ask, hr, ← hsome]
    cases r <;> rfl

theorem appendFile_spec {c bytes : Bytes} (hne : p ≠ []) (hview : view fs p = some (.file c)) :
    Triple (· = fs) (do
        let w ← LayerFS.appendFile p
        onUpper (FileSystem.writeAll w bytes) : VfsM Stack Unit)
      (fun _ fs' => Placed fs fs' p (.file (c ++ bytes))) (fun _ => True) := by
  intro fs₀ hfs
  subst hfs
  rw [EStateM.run_bind, run_appendFile]
  cases hupper : fs₀.upper.get? p with
  | some n =>
    rw [if_pos (by simp), ← EStateM.run_bind]
    exact (Placed.of_upper hne hview (by simp [hupper])).append fs₀ rfl
  | none =>
    rw [if_neg (by simp), if_pos (by simp [hview]), ← EStateM.run_bind, bind_assoc]
    exact Triple.bind_from (copyUp_spec hne hview hupper)
      (fun _ _ hplaced => hplaced.append) fs₀ rfl

/-! ### Removal -/

/-- What removing `p` leaves in the upper layer. -/
structure Removed (fs fs' : Stack) (p : Path) : Prop where
  lower : fs'.lower = fs.lower
  touched : Touched fs.upper fs'.upper p
  entry : fs'.upper.get? p = none
  marker : existsInLower p fs = true → fs'.upper.hides p = true
  ne_nil : p ≠ []

theorem not_prefix_dropLast (hp : p ≠ []) : ¬ p <+: p.dropLast := by
  intro h
  have hlen := h.length_le
  have hpos := List.length_pos_of_ne_nil hp
  rw [List.length_dropLast] at hlen
  omega

theorem ne_of_prefix_dropLast (hp : p ≠ []) (hq : q <+: p.dropLast) : q ≠ p := by
  rintro rfl
  exact not_prefix_dropLast hp hq

/-- Both removals: the upper entry goes, and a whiteout covers the lower layers. -/
theorem removeWith_spec {removeUpper : Path → VfsM Tree Unit} (fs : Stack) (p : Path)
    (hne : fs.upper.get? p = none → p ≠ [])
    (hremove : Triple (· = fs.upper) (removeUpper p)
      (fun _ u => p ≠ [] ∧ u.get? = Function.update fs.upper.get? p none) (fun _ => True)) :
    Triple (· = fs) (removeWith removeUpper p) (fun _ fs' => Removed fs fs' p)
      (fun _ => True) := by
  have hdrop : Triple (· = fs.upper) (whenExists p (removeUpper p))
      (fun _ u => p ≠ [] ∧ u.get? = Function.update fs.upper.get? p none) (fun _ => True) :=
    whenExists_spec (fun hnone => ⟨hne hnone, by rw [← hnone, Function.update_eq_self]⟩)
      fun _ => hremove
  refine Triple.bind_from ((onUpper_spec hdrop).weaken (fun _ h => h) (fun _ _ h => h)
    (fun _ _ => trivial)) ?_
  rintro _ fs₁ ⟨hlower, hne, hget⟩
  -- the lower layers are asked after the upper entry is gone, and do not know
  have hexists : existsInLower p fs₁ = existsInLower p fs := by rw [existsInLower, hlower]; rfl
  refine Triple.bind_from (R := fun b fs' => fs₁ = fs' ∧ b = existsInLower p fs)
    (Triple.ask ?_ fun _ _ => trivial) ?_
  · rintro _ b rfl hb
    exact ⟨rfl, by rw [← Except.ok.inj hb, hexists]⟩
  rintro b _ ⟨rfl, rfl⟩
  refine Triple.ite (fun hlow => ?_) fun hlow => Triple.pure () ?_
  · refine (createWhiteout_spec fs₁ p).weaken (fun _ h => h) ?_ (fun _ _ => trivial)
    rintro _ fs₂ ⟨hlower', hmark, hother⟩
    refine ⟨hlower'.trans hlower, fun q hqp hqw => ?_, ?_, fun _ => hmark, hne⟩
    · have := hother q hqw
      rwa [hget, Function.update_of_ne hqp] at this
    · refine ((hother p (whiteoutPath_ne hne).symm).resolve_right fun hc => ?_).trans (by simp [hget])
      exact not_prefix_dropLast hne hc.2.2.2
  · rintro _ rfl
    refine ⟨hlower, fun q hqp _ => Or.inl ?_, by simp [hget], fun h => absurd h hlow, hne⟩
    rw [hget, Function.update_of_ne hqp]

theorem ne_nil_of_get?_eq_none (h : t.get? p = none) : p ≠ [] := by
  rintro rfl
  rw [Tree.get?_root] at h
  cases h

theorem removeFile_spec (fs : Stack) (p : Path) :
    Triple (· = fs) (LayerFS.removeFile p) (fun _ fs' => Removed fs fs' p) (fun _ => True) := by
  refine removeWith_spec fs p ne_nil_of_get?_eq_none
    ((Tree.removeFile_spec fs.upper p).weaken (fun _ h => h) ?_ (fun _ _ => trivial))
  rintro _ u ⟨⟨c, hc⟩, hget⟩
  exact ⟨Tree.ne_nil_of_file hc, hget⟩

theorem removeDir_spec (fs : Stack) (p : Path) :
    Triple (· = fs) (LayerFS.removeDir p) (fun _ fs' => Removed fs fs' p) (fun _ => True) := by
  refine removeWith_spec fs p ne_nil_of_get?_eq_none
    ((Tree.removeDir_spec fs.upper p).weaken (fun _ h => h) ?_ (fun _ _ => trivial))
  rintro _ u ⟨-, hne, -, hget⟩
  exact ⟨hne, hget⟩

end Rspacefs
