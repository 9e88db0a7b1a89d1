import Rspacefs.Core.Effects
import Rspacefs.Core.Listing

/-!
# The changes a method is made of

Seen from outside, a method of `LayerFS` that runs, returns or fails has made a
number of single changes to the upper layer. `Puts p` are the changes made by the
methods that put something at `p`, `Cuts p` those made by the methods that remove
`p`. A property that no such change destroys is kept by the method, on both exits;
this is one rule per method, and later files never look inside the methods again.

## Main definitions

* `Upd` — the upper layer changed at one stored path
* `Puts`, `Cuts` — the changes, each with what is known when it happens

## Main results

* `createFile_keeps`, `createDir_keeps`, `copyUp_keeps`, `copyFile_keeps`,
  `removeFile_keeps`, `removeDir_keeps` — one rule per method
-/

namespace Rspacefs

open Lib LayerFS

variable {fs fs' : Stack} {p q s : Path} {I : Stack → Prop}

/-- The upper layer changed at the stored path `q`, which now holds `x`. -/
structure Upd (fs fs' : Stack) (q : Path) (x : Option Node) : Prop where
  lower : fs'.lower = fs.lower
  upper : fs'.upper.get? = Function.update fs.upper.get? q x

namespace Upd

variable {x : Option Node}

theorem get?_of_ne (h : Upd fs fs' q x) (hpq : p ≠ q) :
    fs'.upper.get? p = fs.upper.get? p := by
  rw [h.upper, Function.update_of_ne hpq]

theorem get?_self (h : Upd fs fs' q x) : fs'.upper.get? q = x := by
  rw [h.upper, Function.update_self]

end Upd

/-- A change made on the way to an entry at `p`. -/
inductive Puts (p : Path) (fs fs' : Stack) : Prop
  | mkdir (q : Path) (hq : q <+: p) (hne : q ≠ []) (hnone : fs.upper.get? q = none)
      (hparent : fs.upper.get? q.dropLast = some .dir) (h : Upd fs fs' q (some .dir))
  | unmark (hmark : fs.upper.hides p = true) (h : Upd fs fs' (whiteoutPath p) none)
  | write (c : Bytes) (hne : p ≠ []) (hfree : fs.upper.get? p ≠ some .dir)
      (hparent : fs.upper.get? p.dropLast = some .dir) (h : Upd fs fs' p (some (.file c)))

/-- A change made on the way to removing `p`. -/
inductive Cuts (p : Path) (fs fs' : Stack) : Prop
  | mkdir (q : Path) (hq : q <+: p.dropLast) (hne : q ≠ []) (hnone : fs.upper.get? q = none)
      (hparent : fs.upper.get? q.dropLast = some .dir) (h : Upd fs fs' q (some .dir))
  | drop (hne : p ≠ []) (hsome : (fs.upper.get? p).isSome)
      (hempty : ∀ a, fs.upper.get? (p ++ [a]) = none) (h : Upd fs fs' p none)
  | mark (hne : p ≠ []) (hnone : fs.upper.get? p = none) (hfree : fs.upper.hides p = false)
      (h : Upd fs fs' (whiteoutPath p) (some (.file [])))

namespace Puts

theorem lower (h : Puts p fs fs') : fs'.lower = fs.lower := by
  cases h with
  | mkdir _ _ _ _ _ h => exact h.lower
  | unmark _ h => exact h.lower
  | write _ _ _ _ h => exact h.lower

theorem get?_opaquePath (h : Puts p fs fs') (hp : NoMarker p) (x : Path) :
    fs'.upper.get? (opaquePath x) = fs.upper.get? (opaquePath x) := by
  cases h with
  | mkdir r hr _ _ _ h => exact h.get?_of_ne (hp.of_isPrefix hr).ne_opaquePath.symm
  | unmark _ h => exact h.get?_of_ne hp.whiteoutPath_ne_opaquePath.symm
  | write c _ _ _ h => exact h.get?_of_ne hp.ne_opaquePath.symm

end Puts

namespace Cuts

theorem lower (h : Cuts p fs fs') : fs'.lower = fs.lower := by
  cases h with
  | mkdir _ _ _ _ _ h => exact h.lower
  | drop _ _ _ h => exact h.lower
  | mark _ _ _ h => exact h.lower

theorem get?_opaquePath (h : Cuts p fs fs') (hp : NoMarker p) (x : Path) :
    fs'.upper.get? (opaquePath x) = fs.upper.get? (opaquePath x) := by
  cases h with
  | mkdir r hr _ _ _ h => exact h.get?_of_ne (hp.dropLast.of_isPrefix hr).ne_opaquePath.symm
  | drop _ _ _ h => exact h.get?_of_ne hp.ne_opaquePath.symm
  | mark _ _ _ h => exact h.get?_of_ne hp.whiteoutPath_ne_opaquePath.symm

end Cuts

/-! ### Steps on the upper layer -/

theorem onUpper_rule {α : Type} {x : VfsM Tree α} {P E : Stack → Prop} {Q : α → Stack → Prop}
    (h : ∀ lower, Triple (fun u => P ⟨u, lower⟩) x (fun a u => Q a ⟨u, lower⟩)
      (fun u => E ⟨u, lower⟩)) : Triple P (onUpper x) Q E :=
  Triple.of_forall fun fs hfs =>
    Triple.onPart fs ((h fs.lower).weaken (by rintro _ rfl; exact hfs) (fun _ _ h => h)
      (fun _ h => h))

/-- The directories made on the way down. -/
theorem ensureDirs_keeps {J : Tree → Prop} (hJ : ∀ u u' q, J u → q <+: p → q ≠ [] →
      u.get? q = none → u.get? q.dropLast = some .dir →
      u'.get? = Function.update u.get? q (some .dir) → J u')
    (current : Path) (parts : List Name) (hp : current ++ parts <+: p) :
    Triple J (ensureDirs current parts) (fun _ => J) J := by
  induction parts generalizing current with
  | nil => exact Triple.pure () fun _ h => h
  | cons part rest ih =>
    have hrest : current ++ [part] ++ rest <+: p := by simpa using hp
    refine Triple.bind (R := fun _ => J) ?_ fun _ => ih _ hrest
    refine Triple.of_forall fun u hu => unlessExists_spec (fun _ => hu) fun _ => ?_
    refine (VfsPath.createDir_spec u (current ++ [part])).weaken (fun _ h => h) ?_ ?_
    · rintro _ u' ⟨hnone, hparent, hne, hget⟩
      exact hJ u u' _ hu ((List.prefix_append _ _).trans hrest) hne hnone hparent hget
    · rintro _ rfl
      exact hu

/-- Making a missing directory at or above `p` keeps `I`. -/
def KeptByMkdir (I : Stack → Prop) (p : Path) : Prop :=
  ∀ fs fs' q, I fs → q <+: p → q ≠ [] → fs.upper.get? q = none →
    fs.upper.get? q.dropLast = some .dir → Upd fs fs' q (some .dir) → I fs'

/-- Dropping the whiteout marker of `p` keeps `I`. -/
def KeptByUnmark (I : Stack → Prop) (p : Path) : Prop :=
  ∀ fs fs', I fs → fs.upper.hides p = true → Upd fs fs' (whiteoutPath p) none → I fs'

theorem ensureUpperParents_keeps (hI : KeptByMkdir I p.dropLast) :
    Triple I (ensureUpperParents p) (fun _ => I) I := by
  refine onUpper_rule fun lower => ensureDirs_keeps (p := p.dropLast) ?_ [] _ (by simp)
  intro u u' q hu hq hne hnone hparent hget
  exact hI ⟨u, lower⟩ ⟨u', lower⟩ q hu hq hne hnone hparent ⟨rfl, hget⟩

theorem mkdir_keeps (hI : KeptByMkdir I p) :
    Triple I (onUpper (VfsPath.createDir p)) (fun _ => I) I := by
  refine onUpper_rule fun lower => Triple.of_forall fun u hu => ?_
  refine (VfsPath.createDir_spec u p).weaken (fun _ h => h) ?_ ?_
  · rintro _ u' ⟨hnone, hparent, hne, hget⟩
    exact hI ⟨u, lower⟩ ⟨u', lower⟩ p hu (List.prefix_refl p) hne hnone hparent ⟨rfl, hget⟩
  · rintro _ rfl
    exact hu

theorem KeptByMkdir.dropLast (h : KeptByMkdir I p) : KeptByMkdir I p.dropLast :=
  fun fs fs' q hfs hq => h fs fs' q hfs (hq.trans (List.dropLast_prefix p))

theorem removeWhiteout_keeps (hI : KeptByUnmark I p) :
    Triple I (removeWhiteout p) (fun _ => I) I := by
  refine onUpper_rule fun lower => Triple.of_forall fun u hu =>
    whenExists_spec (fun _ => hu) fun hmark => ?_
  refine (Tree.removeFile_spec u (whiteoutPath p)).weaken (fun _ h => h) ?_ ?_
  · rintro _ u' ⟨-, hget⟩
    exact hI ⟨u, lower⟩ ⟨u', lower⟩ hu hmark ⟨rfl, hget⟩
  · rintro _ rfl
    exact hu

theorem createDir_keeps (hmkdir : KeptByMkdir I p) (hunmark : KeptByUnmark I p) :
    Triple I (LayerFS.createDir p) (fun _ => I) I :=
  Triple.bind (ensureUpperParents_keeps hmkdir.dropLast) fun _ =>
    Triple.bind (removeWhiteout_keeps hunmark) fun _ => mkdir_keeps hmkdir

/-- The beginning of `copy_dir_recursive`. -/
def makeTarget (dest : Path) : VfsM Stack Unit := do
  ensureUpperParents dest
  removeWhiteout dest
  onUpper (unlessExists dest (VfsPath.createDir dest))

theorem keptByUnmark_of_puts (hI : ∀ fs fs', I fs → Puts p fs fs' → I fs') : KeptByUnmark I p :=
  fun fs fs' hfs hmark h => hI fs fs' hfs (.unmark hmark h)

theorem keptByMkdir_of_puts (hI : ∀ fs fs', I fs → Puts p fs fs' → I fs') : KeptByMkdir I p :=
  fun fs fs' q hfs hq hne hnone hparent h => hI fs fs' hfs (.mkdir q hq hne hnone hparent h)

section Puts

variable (hI : ∀ fs fs', I fs → Puts p fs fs' → I fs')
include hI

theorem ensureUpperParents_puts : Triple I (ensureUpperParents p) (fun _ => I) I :=
  ensureUpperParents_keeps (keptByMkdir_of_puts hI).dropLast

theorem mkfile_keeps :
    Triple I (onUpper (VfsPath.createFile p)) (fun w fs' => I fs' ∧ w.path = p) I := by
  refine onUpper_rule fun lower => Triple.of_forall fun u hu => ?_
  refine (VfsPath.createFile_spec u p).weaken (fun _ h => h) ?_ ?_
  · rintro _ u' ⟨rfl, hfree, hparent, hne, hget⟩
    exact ⟨hI ⟨u, lower⟩ ⟨u', lower⟩ hu (.write [] hne hfree hparent ⟨rfl, hget⟩), rfl⟩
  · rintro _ rfl
    exact hu

/-- Writing through a handle on `p`. -/
theorem writeAll_keeps (w : Writer) (bytes : Bytes) :
    Triple (fun fs' => I fs' ∧ w.path = p) (onUpper (FileSystem.writeAll w bytes))
      (fun _ => I) I := by
  refine onUpper_rule fun lower => Triple.of_forall fun u ⟨hu, hw⟩ => ?_
  refine (Tree.writeAll_spec u w bytes).weaken (fun _ h => h) ?_ ?_
  · rintro _ u' ⟨c, hc, hget⟩
    rw [hw] at hc hget
    refine hI ⟨u, lower⟩ ⟨u', lower⟩ hu (.write _ (Tree.ne_nil_of_file hc) ?_
      (Tree.get?_parent (Tree.ne_nil_of_file hc) hc) ⟨rfl, hget⟩)
    simp [hc]
  · rintro _ rfl
    exact hu

theorem makeTarget_keeps : Triple I (makeTarget p) (fun _ => I) I := by
  refine Triple.bind (ensureUpperParents_puts hI) fun _ =>
    Triple.bind (removeWhiteout_keeps (keptByUnmark_of_puts hI)) fun _ => ?_
  refine onUpper_rule fun lower => Triple.of_forall fun u hu =>
    unlessExists_spec (fun _ => hu) fun hnone => ?_
  refine (VfsPath.createDir_spec u p).weaken (fun _ h => h) ?_ (by rintro _ rfl; exact hu)
  rintro _ u' ⟨-, hparent, hne, hget⟩
  exact hI ⟨u, lower⟩ ⟨u', lower⟩ hu
    (.mkdir p (List.prefix_refl _) hne hnone hparent ⟨rfl, hget⟩)

theorem createFile_keeps :
    Triple I (LayerFS.createFile p) (fun w fs' => I fs' ∧ w.path = p) I :=
  Triple.bind (ensureUpperParents_puts hI) fun _ =>
    Triple.bind (removeWhiteout_keeps (keptByUnmark_of_puts hI)) fun _ => mkfile_keeps hI

theorem copyFile_keeps (s : Path) : Triple I (LayerFS.copyFile s p) (fun _ => I) I := by
  refine Triple.of_forall fun fs hfs => readSource_spec s hfs fun c _ => ?_
  have hrest := Triple.bind (ensureUpperParents_puts hI) fun _ =>
    Triple.bind (removeWhiteout_keeps (keptByUnmark_of_puts hI)) fun _ =>
      Triple.bind (mkfile_keeps hI) fun w => writeAll_keeps hI w c
  exact hrest.weaken (by rintro _ rfl; exact hfs) (fun _ _ h => h) (fun _ h => h)

/-- Copy-up of a file that only lower layers hold. -/
theorem copyUp_keeps {c : Bytes} (hfs : I fs) (hupper : fs.upper.get? p = none)
    (hview : view fs p = some (.file c)) : Triple (· = fs) (copyUp p) (fun _ => I) I := by
  rintro _ rfl
  rw [run_copyUp hupper hview]
  exact Triple.bind (ensureUpperParents_puts hI)
    (fun _ => Triple.bind (mkfile_keeps hI) fun w => writeAll_keeps hI w c) _ hfs

end Puts

/-- Copy-up of a directory that only lower layers hold. -/
theorem copyUp_dir_keeps (hI : KeptByMkdir I p) (hfs : I fs) (hupper : fs.upper.get? p = none)
    (hview : view fs p = some .dir) : Triple (· = fs) (copyUp p) (fun _ => I) I := by
  rintro _ rfl
  rw [run_copyUp hupper hview]
  exact Triple.bind (ensureUpperParents_keeps hI.dropLast) (fun _ => mkdir_keeps hI) _ hfs

section Cuts

variable (hI : ∀ fs fs', I fs → Cuts p fs fs' → I fs')
include hI

theorem createWhiteout_keeps :
    Triple (fun fs => I fs ∧ fs.upper.get? p = none) (createWhiteout p)
      (fun _ => I) I := by
  have hparent : (whiteoutPath p).dropLast = p.dropLast := by simp [whiteoutPath, splitPath]
  have hparents : Triple (fun fs => I fs ∧ fs.upper.get? p = none)
      (ensureUpperParents (whiteoutPath p)) (fun _ fs => I fs ∧ fs.upper.get? p = none) I := by
    refine (ensureUpperParents_keeps ?_).weaken (fun _ h => h) (fun _ _ h => h) (fun _ h => h.1)
    rintro fs fs' q ⟨hfs, hnone⟩ hq hne hqnone hqparent h
    rw [hparent] at hq
    refine ⟨hI fs fs' hfs (.mkdir q hq hne hqnone hqparent h), ?_⟩
    rw [h.upper, Function.update_of_ne, hnone]
    rintro rfl
    exact not_prefix_dropLast (ne_nil_of_get?_eq_none hnone) hq
  refine Triple.bind hparents fun _ => onUpper_rule fun lower => Triple.of_forall fun u hu => ?_
  refine unlessExists_spec (fun _ => hu.1) fun hfree => ?_
  refine Triple.bind_from ((VfsPath.createFile_spec u (whiteoutPath p)).weaken (fun _ h => h)
    (fun _ _ h => h) (by rintro _ rfl; exact hu.1)) ?_
  rintro _ u' ⟨-, -, -, -, hget⟩
  refine Triple.pure () ?_
  rintro _ rfl
  have hmark : u.hides p = false := Tree.hides_eq_false.mpr hfree
  exact hI ⟨u, lower⟩ ⟨_, lower⟩ hu.1 (.mark (ne_nil_of_get?_eq_none hu.2) hu.2 hmark ⟨rfl, hget⟩)

theorem removeWith_keeps {removeUpper : Path → VfsM Tree Unit}
    (hremove : ∀ u, Triple (· = u) (removeUpper p)
      (fun _ u' => p ≠ [] ∧ (∀ a, u.get? (p ++ [a]) = none) ∧
        u'.get? = Function.update u.get? p none) (· = u)) :
    Triple I (removeWith removeUpper p) (fun _ => I) I := by
  have hdrop : Triple I (onUpper (whenExists p (removeUpper p)))
      (fun _ fs => I fs ∧ fs.upper.get? p = none) I := by
    refine onUpper_rule fun lower => Triple.of_forall fun u hu =>
      whenExists_spec (fun hnone => ⟨hu, hnone⟩) fun hsome => ?_
    refine (hremove u).weaken (fun _ h => h) ?_ ?_
    · rintro _ u' ⟨hne, hempty, hget⟩
      exact ⟨hI ⟨u, lower⟩ ⟨u', lower⟩ hu (.drop hne hsome hempty ⟨rfl, hget⟩), by simp [hget]⟩
    · rintro _ rfl
      exact hu
  refine Triple.bind hdrop fun _ => ?_
  refine Triple.bind (R := fun _ fs => I fs ∧ fs.upper.get? p = none)
    (Triple.ask (fun _ _ h _ => h) fun _ h => h.1) fun b => ?_
  exact Triple.ite (fun _ => createWhiteout_keeps hI) fun _ => Triple.pure () fun _ h => h.1

theorem removeFile_keeps : Triple I (LayerFS.removeFile p) (fun _ => I) I := by
  refine removeWith_keeps hI fun u => (Tree.removeFile_spec u p).weaken (fun _ h => h) ?_
    (fun _ h => h)
  rintro _ u' ⟨⟨c, hc⟩, hget⟩
  exact ⟨Tree.ne_nil_of_file hc, PathMap.children_eq_nil.mp (Tree.children_of_file hc), hget⟩

theorem removeDir_keeps : Triple I (LayerFS.removeDir p) (fun _ => I) I := by
  refine removeWith_keeps hI fun u => (Tree.removeDir_spec u p).weaken (fun _ h => h) ?_
    (fun _ h => h)
  rintro _ u' ⟨-, hne, hempty, hget⟩
  exact ⟨hne, hempty, hget⟩

end Cuts

/-- A removal for which no whiteout is due. -/
theorem removeWith_bare {removeUpper : Path → VfsM Tree Unit}
    (hI : ∀ fs fs', I fs → Upd fs fs' p none → I fs')
    (hremove : ∀ u, Triple (· = u) (removeUpper p)
      (fun _ u' => u'.get? = Function.update u.get? p none) (· = u)) :
    Triple (fun fs => I fs ∧ existsInLower p fs = false) (removeWith removeUpper p) (fun _ => I)
      I := by
  have hdrop : Triple (fun fs => I fs ∧ existsInLower p fs = false)
      (onUpper (whenExists p (removeUpper p))) (fun _ fs => I fs ∧ existsInLower p fs = false)
      I := by
    refine onUpper_rule fun lower => Triple.of_forall fun u hu =>
      whenExists_spec (fun _ => hu) fun _ => (hremove u).weaken (fun _ h => h) ?_ ?_
    · intro _ u' hget
      exact ⟨hI ⟨u, lower⟩ ⟨u', lower⟩ hu.1 ⟨rfl, hget⟩, hu.2⟩
    · rintro _ rfl
      exact hu.1
  refine Triple.bind hdrop fun _ => ?_
  refine Triple.bind (R := fun b fs => I fs ∧ b = false) (Triple.ask ?_ fun _ h => h.1) fun b => ?_
  · rintro fs b ⟨hfs, hlower⟩ hb
    exact ⟨hfs, (Except.ok.inj hb).symm.trans hlower⟩
  · refine Triple.ite (fun hb => ?_) fun _ => Triple.pure () fun _ h => h.1
    rintro fs ⟨-, hfalse⟩
    exact absurd (hb.symm.trans hfalse) (by decide)

/-! ### Whole directories

One rule for each of the two recursions. What holds while a directory is gone through is
`J`; the rules ask for the way down to a child and back. -/

section Entries

variable {src dest : Path} {n : Name}

/-- What `resolve` and `metadata` find at a path is what is shown there. -/
theorem run_shown {α : Type} (fs : Stack) (p : Path) (none' dir file : VfsM Stack α) :
    (do
      let resolved ← ask fun fs : Stack => resolve p fs
      match resolved with
      | none => none'
      | some source =>
        let md ← ask fun fs : Stack => source.metadata p fs
        if md.fileType = .directory then dir else file : VfsM Stack α).run fs =
      match view fs p with
      | none => none'.run fs
      | some .dir => dir.run fs
      | some (.file _) => file.run fs := by
  obtain ⟨r, hr, hsome, hnode⟩ := resolve_of_view fs p
  rw [EStateM.run_bind, run_ask, hr]
  cases r with
  | none =>
    cases hview : view fs p with
    | none => rfl
    | some node =>
      rw [hview] at hsome
      cases hsome
  | some source =>
    cases hview : view fs p with
    | none =>
      rw [hview] at hsome
      cases hsome
    | some node =>
      have hsource : source.metadata p fs = .ok ⟨node.fileType, node.len⟩ :=
        Resolved.metadata_eq ((hnode source rfl).trans hview)
      change (ask (fun fs : Stack => source.metadata p fs) >>= _ : VfsM Stack α).run fs = _
      rw [EStateM.run_bind, run_ask, hsource]
      cases node <;> rfl

/-- One turn of the loop of `copy_dir_recursive`, given the recursive call. -/
def copyEntry (descend : Path → Path → VfsM Stack Unit) (src dest : Path) (n : Name) :
    VfsM Stack Unit := do
  let resolved ← ask fun fs : Stack => resolve (src ++ [n]) fs
  match resolved with
  | none => pure ()
  | some source =>
    let md ← ask fun fs : Stack => source.metadata (src ++ [n]) fs
    if md.fileType = .directory then descend (src ++ [n]) (dest ++ [n])
    else LayerFS.copyFile (src ++ [n]) (dest ++ [n])

/-- One turn of the loop of `remove_dir_recursive`, given the recursive call. -/
def removeEntry (descend : Path → VfsM Stack Unit) (p : Path) (n : Name) : VfsM Stack Unit := do
  let resolved ← ask fun fs : Stack => resolve (p ++ [n]) fs
  match resolved with
  | none => pure ()
  | some source =>
    let md ← ask fun fs : Stack => source.metadata (p ++ [n]) fs
    if md.fileType = .directory then descend (p ++ [n]) else LayerFS.removeFile (p ++ [n])

theorem copyDirRecursive_succ (frames : Nat) (src dest : Path) :
    (copyDirRecursive (frames + 1) src dest : VfsM Stack Unit) = (do
      makeTarget dest
      let entries ← ask fun fs : Stack => LayerFS.readDir src fs
      entries.forM (copyEntry (copyDirRecursive frames) src dest)) := by
  rw [copyDirRecursive, makeTarget, bind_assoc]
  apply bind_congr; intro _
  rw [bind_assoc]
  apply bind_congr; intro _
  apply bind_congr; intro _
  apply bind_congr; intro entries
  apply congrArg entries.forM
  funext n
  apply bind_congr
  intro resolved
  cases resolved <;> rfl

theorem removeDirRecursive_succ (frames : Nat) (p : Path) :
    (removeDirRecursive (frames + 1) p : VfsM Stack Unit) = (do
      let entries ← ask fun fs : Stack => LayerFS.readDir p fs
      entries.forM (removeEntry (removeDirRecursive frames) p)
      onUpper (removeMarkers p)
      LayerFS.removeDir p) := by
  rw [removeDirRecursive]
  apply bind_congr; intro entries
  congr 2
  funext n
  apply bind_congr
  intro resolved
  cases resolved <;> rfl

theorem run_copyEntry (descend : Path → Path → VfsM Stack Unit) (fs : Stack) :
    (copyEntry descend src dest n).run fs = match view fs (src ++ [n]) with
      | none => .ok () fs
      | some .dir => (descend (src ++ [n]) (dest ++ [n])).run fs
      | some (.file _) => (LayerFS.copyFile (src ++ [n]) (dest ++ [n]) : VfsM Stack Unit).run fs :=
  run_shown fs (src ++ [n]) _ _ _

theorem run_removeEntry (descend : Path → VfsM Stack Unit) (fs : Stack) :
    (removeEntry descend p n).run fs = match view fs (p ++ [n]) with
      | none => .ok () fs
      | some .dir => (descend (p ++ [n])).run fs
      | some (.file _) => (LayerFS.removeFile (p ++ [n]) : VfsM Stack Unit).run fs :=
  run_shown fs (p ++ [n]) _ _ _

end Entries

section Levels

/-- What is known while a directory is copied: `K` before its target is made, and `J` while entries
are copied into it. -/
structure CopyLevels (D : Path → Path → Prop) (K J : Path → Path → Stack → Prop)
    (E : Stack → Prop) : Prop where
  down : ∀ src dest n, D src dest → ¬ IsMarker n → D (src ++ [n]) (dest ++ [n])
  before : ∀ src dest fs, D src dest → K src dest fs → E fs
  during : ∀ src dest fs, D src dest → J src dest fs → E fs
  target : ∀ src dest, D src dest → Triple (K src dest) (makeTarget dest) (fun _ => J src dest) E
  enter : ∀ src dest n fs, D src dest → ¬ IsMarker n → view fs (src ++ [n]) = some .dir →
    J src dest fs → K (src ++ [n]) (dest ++ [n]) fs
  leave : ∀ src dest n fs, D src dest → ¬ IsMarker n → J (src ++ [n]) (dest ++ [n]) fs →
    J src dest fs
  file : ∀ src dest n c, D src dest → ¬ IsMarker n →
    Triple (fun fs => J src dest fs ∧ view fs (src ++ [n]) = some (.file c))
      (LayerFS.copyFile (src ++ [n]) (dest ++ [n])) (fun _ => J src dest) E

/-- What is known while a directory is removed: `K p` before it is listed, `J p` while its entries
go, `M p` after its markers went, and `J` of its parent after it is gone. -/
structure RemoveLevels (D : Path → Prop) (K J M : Path → Stack → Prop) (E : Stack → Prop) :
    Prop where
  down : ∀ p n, D p → ¬ IsMarker n → D (p ++ [n])
  before : ∀ p fs, D p → K p fs → E fs
  list : ∀ p fs l, D p → K p fs → LayerFS.readDir p fs = .ok l → J p fs
  enter : ∀ p n fs, D p → ¬ IsMarker n → view fs (p ++ [n]) = some .dir → J p fs → K (p ++ [n]) fs
  file : ∀ p n c, D p → ¬ IsMarker n →
    Triple (fun fs => J p fs ∧ view fs (p ++ [n]) = some (.file c)) (LayerFS.removeFile (p ++ [n]))
      (fun _ => J p) E
  markers : ∀ p, D p → Triple (J p) (onUpper (removeMarkers p)) (fun _ => M p) E
  dir : ∀ p, D p → Triple (M p) (LayerFS.removeDir p) (fun _ => J p.dropLast) E

variable {D : Path → Path → Prop} {K J : Path → Path → Stack → Prop} {E : Stack → Prop}
  {src dest : Path}

/-- Listing a directory gives names that are no markers. -/
theorem readDir_keeps (hE : ∀ fs, I fs → E fs) :
    Triple I (ask fun fs : Stack => LayerFS.readDir p fs)
      (fun entries fs => (I fs ∧ LayerFS.readDir p fs = .ok entries) ∧
        ∀ n ∈ entries, ¬ IsMarker n) E :=
  Triple.ask (fun _ _ h hl => ⟨⟨h, hl⟩, fun _ hn => not_isMarker_of_mem_readDir hl hn⟩) hE

namespace CopyLevels

theorem entry (h : CopyLevels D K J E) (hD : D src dest) {descend : Path → Path → VfsM Stack Unit}
    (hdescend : ∀ n, ¬ IsMarker n → Triple (K (src ++ [n]) (dest ++ [n]))
      (descend (src ++ [n]) (dest ++ [n])) (fun _ => J (src ++ [n]) (dest ++ [n])) E)
    {n : Name} (hn : ¬ IsMarker n) :
    Triple (J src dest) (copyEntry descend src dest n) (fun _ => J src dest) E := by
  intro fs hfs
  rw [run_copyEntry]
  cases hview : view fs (src ++ [n]) with
  | none => exact hfs
  | some node =>
    cases node with
    | dir =>
      exact (hdescend n hn).weaken (fun _ h => h) (fun _ fs' => h.leave src dest n fs' hD hn)
        (fun _ h => h) fs (h.enter src dest n fs hD hn hview hfs)
    | file c => exact h.file src dest n c hD hn fs ⟨hfs, hview⟩

/-- The target directory is made, and then each entry copied. -/
theorem triple (h : CopyLevels D K J E) (frames : Nat) (src dest : Path) (hD : D src dest) :
    Triple (K src dest) (copyDirRecursive frames src dest) (fun _ => J src dest) E := by
  induction frames generalizing src dest with
  | zero => exact Triple.throw _ fun fs hfs => h.before src dest fs hD hfs
  | succ frames ih =>
    rw [copyDirRecursive_succ]
    refine Triple.bind (h.target src dest hD) fun _ => ?_
    refine Triple.bind (readDir_keeps fun fs => h.during src dest fs hD) fun entries => ?_
    refine Triple.of_forall fun fs ⟨⟨hfs, _⟩, hplain⟩ => ?_
    refine (Triple.forM fun n hn => ?_).weaken (by rintro _ rfl; exact hfs) (fun _ _ h => h)
      (fun _ h => h)
    exact h.entry hD (fun n hn => ih _ _ (h.down src dest n hD hn)) (hplain n hn)

end CopyLevels

namespace RemoveLevels

variable {D : Path → Prop} {K J M : Path → Stack → Prop}

theorem entry (h : RemoveLevels D K J M E) (hD : D p) {descend : Path → VfsM Stack Unit}
    (hdescend : ∀ n, ¬ IsMarker n →
      Triple (K (p ++ [n])) (descend (p ++ [n])) (fun _ => J p) E)
    {n : Name} (hn : ¬ IsMarker n) :
    Triple (J p) (removeEntry descend p n) (fun _ => J p) E := by
  intro fs hfs
  rw [run_removeEntry]
  cases hview : view fs (p ++ [n]) with
  | none => exact hfs
  | some node =>
    cases node with
    | dir => exact hdescend n hn fs (h.enter p n fs hD hn hview hfs)
    | file c => exact h.file p n c hD hn fs ⟨hfs, hview⟩

/-- Each entry is removed, then what markers there are, then the directory. -/
theorem triple (h : RemoveLevels D K J M E) (frames : Nat) (p : Path) (hD : D p) :
    Triple (K p) (removeDirRecursive frames p) (fun _ => J p.dropLast) E := by
  induction frames generalizing p with
  | zero => exact Triple.throw _ fun fs hfs => h.before p fs hD hfs
  | succ frames ih =>
    rw [removeDirRecursive_succ]
    refine Triple.bind (readDir_keeps fun fs => h.before p fs hD) fun entries => ?_
    refine Triple.bind (R := fun _ => J p) ?_ fun _ =>
      Triple.bind (h.markers p hD) fun _ => h.dir p hD
    refine Triple.of_forall fun fs ⟨⟨hfs, hlist⟩, hplain⟩ => ?_
    refine (Triple.forM fun n hn => ?_).weaken
      (by rintro _ rfl; exact h.list p _ entries hD hfs hlist) (fun _ _ h => h) (fun _ h => h)
    refine h.entry hD (fun n hn => ?_) (hplain n hn)
    have hchild := ih (p ++ [n]) (h.down p n hD hn)
    rwa [List.dropLast_concat] at hchild

end RemoveLevels

end Levels

/-- Dropping the markers of a directory. -/
theorem removeMarkers_keeps (hI : ∀ m c fs fs', I fs → IsMarker m →
      fs.upper.get? (p ++ [m]) = some (.file c) → Upd fs fs' (p ++ [m]) none → I fs') :
    Triple I (onUpper (removeMarkers p)) (fun _ => I) I := by
  refine onUpper_rule fun lower => Triple.of_forall fun u hu =>
    whenExists_spec (fun _ => hu) fun _ => ?_
  refine Triple.bind (R := fun _ u => I ⟨u, lower⟩)
    (Triple.ask (by rintro _ _ rfl -; exact hu) (by rintro _ rfl; exact hu)) fun names => ?_
  refine Triple.forM fun m _ => Triple.ite (fun hm => ?_) fun _ => Triple.pure () fun _ h => h
  refine Triple.of_forall fun u hu => (Tree.removeFile_spec u (p ++ [m])).weaken (fun _ h => h)
    ?_ (by rintro _ rfl; exact hu)
  rintro _ u' ⟨⟨c, hc⟩, hget⟩
  exact hI m c ⟨u, lower⟩ ⟨u', lower⟩ hu hm hc ⟨rfl, hget⟩

/-- Copying a directory makes the changes of its target and of paths below it. -/
theorem copyDirRecursive_keeps (frames : Nat) (src dest : Path)
    (hI : ∀ r, NoMarker r → ∀ fs fs', I fs → Puts (dest ++ r) fs fs' → I fs') :
    Triple I (copyDirRecursive frames src dest) (fun _ => I) I := by
  -- the targets are the paths below `dest`
  have hlevels : CopyLevels (fun _ q => ∃ r, NoMarker r ∧ q = dest ++ r) (fun _ _ => I)
      (fun _ _ => I) I := by
    constructor
    case down =>
      rintro _ _ n ⟨r, hr, rfl⟩ hn
      exact ⟨r ++ [n], hr.concat hn, by simp⟩
    case before => exact fun _ _ _ _ h => h
    case during => exact fun _ _ _ _ h => h
    case target =>
      rintro _ _ ⟨r, hr, rfl⟩
      exact makeTarget_keeps (hI r hr)
    case enter => exact fun _ _ _ _ _ _ _ h => h
    case leave => exact fun _ _ _ _ _ _ h => h
    case file =>
      rintro src _ n c ⟨r, hr, rfl⟩ hn
      rw [List.append_assoc]
      exact (copyFile_keeps (hI (r ++ [n]) (hr.concat hn)) _).weaken (fun _ h => h.1)
        (fun _ _ h => h) fun _ h => h
  exact hlevels.triple frames src dest ⟨[], by simp [NoMarker], by simp⟩

/-- Removing a directory makes the changes of removing it and paths below it, and
drops markers there. -/
theorem removeDirRecursive_keeps (frames : Nat) (p : Path)
    (hI : ∀ r, NoMarker r → ∀ fs fs', I fs → Cuts (p ++ r) fs fs' → I fs')
    (hdrop : ∀ r m, NoMarker r → IsMarker m → ∀ fs fs', I fs →
      Upd fs fs' (p ++ r ++ [m]) none → I fs') :
    Triple I (removeDirRecursive frames p) (fun _ => I) I := by
  -- every level works on a path `p ++ r`, and `I` is all that is kept
  have hlevels : RemoveLevels (fun q => ∃ r, NoMarker r ∧ q = p ++ r) (fun _ => I) (fun _ => I)
      (fun _ => I) I := by
    constructor
    case down =>
      rintro _ n ⟨r, hr, rfl⟩ hn
      exact ⟨r ++ [n], hr.concat hn, by simp⟩
    case before => exact fun _ _ _ h => h
    case list => exact fun _ _ _ _ h _ => h
    case enter => exact fun _ _ _ _ _ _ h => h
    case file =>
      rintro _ n c ⟨r, hr, rfl⟩ hn
      rw [List.append_assoc]
      exact (removeFile_keeps (hI (r ++ [n]) (hr.concat hn))).weaken (fun _ h => h.1)
        (fun _ _ h => h) fun _ h => h
    case markers =>
      rintro _ ⟨r, hr, rfl⟩
      exact removeMarkers_keeps fun m _ fs fs' h hm _ hupd => hdrop r m hr hm fs fs' h hupd
    case dir =>
      rintro _ ⟨r, hr, rfl⟩
      exact removeDir_keeps (hI r hr)
  exact hlevels.triple frames p ⟨[], by simp [NoMarker], by simp⟩

end Rspacefs
