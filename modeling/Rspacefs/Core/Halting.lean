import Mathlib.Algebra.Order.BigOperators.Group.List
import Mathlib.Algebra.Order.Group.Nat
import Rspacefs.Core.Kinds
import Rspacefs.Core.Succeed
import Rspacefs.Core.TreeView

/-!
# How many frames the recursions take

`copy_dir_recursive` lists directories of the view that it is extending. Each level of the
recursion takes a stack frame, and a call that needs more than there are never ends as the
source means it to, neither with a value nor with an error of the filesystem.

## Main definitions

* `NoOverflow` — the errors of the filesystem
* `Into` — the destination is a directory below the source
* `Depth` — how deep the layers are below a path

## Main results

* `CopyLevels.noOverflow`, `RemoveLevels.noOverflow` — a recursion that stays within the depth
  of the layers does not run out of frames
* `exists_noOverflow_copyDirRecursive` — a copy has enough at some number, unless it goes into
  itself
* `exists_noOverflow_removeDirRecursive` — and a removal always
-/

namespace Rspacefs

open Lib LayerFS

variable {fs fs' : Stack} {t u : Tree} {p q src dest : Path} {n : Name} {B frames : Nat}

/-- Any error but that of a call which ran out of stack. -/
def NoOverflow (e : VfsError) : Prop := e ≠ .stackOverflow

/-! ### Calls without recursion -/

section Calls

variable {P : Tree → Prop} {S : Stack → Prop}

namespace Tree

theorem commit_error {α : Type} {a : α} {t t' : Tree} {o : Option Tree} {e : VfsError}
    (h : commit a t o = .error e t') : e = .ioError := by
  cases o <;> cases h
  rfl

theorem createDir_noOverflow (p : Path) :
    FailsWith NoOverflow P (FileSystem.createDir p : VfsM Tree Unit) := by
  intro t _ e t' h
  change Tree.createDir p t = _ at h
  unfold Tree.createDir at h
  split at h
  · cases h
    nofun
  · cases h
    nofun
  · rw [commit_error h]
    nofun

theorem createFile_noOverflow (p : Path) :
    FailsWith NoOverflow P (FileSystem.createFile p : VfsM Tree Writer) := by
  intro t _ e t' h
  change Tree.createFile p t = _ at h
  unfold Tree.createFile at h
  split at h
  · cases h
    nofun
  · rw [commit_error h]
    nofun

theorem removeFile_noOverflow (p : Path) :
    FailsWith NoOverflow P (FileSystem.removeFile p : VfsM Tree Unit) := by
  intro t _ e t' h
  change Tree.removeFile p t = _ at h
  unfold Tree.removeFile at h
  split at h
  · cases h
    nofun
  · cases h
    nofun
  · rw [commit_error h]
    nofun

theorem removeDir_noOverflow (p : Path) :
    FailsWith NoOverflow P (FileSystem.removeDir p : VfsM Tree Unit) := by
  intro t _ e t' h
  change Tree.removeDir p t = _ at h
  unfold Tree.removeDir at h
  split at h
  · cases h
    nofun
  · cases h
    nofun
  · rw [commit_error h]
    nofun

theorem writeAll_noOverflow (w : Writer) (bytes : Bytes) :
    FailsWith NoOverflow P (FileSystem.writeAll w bytes : VfsM Tree Unit) := by
  intro t _ e t' h
  change Tree.writeAll w bytes t = _ at h
  unfold Tree.writeAll at h
  split at h
  · rw [commit_error h]
    nofun
  · cases h
    nofun

theorem readDir_noOverflow {e : VfsError} (h : Rspacefs.readDir t p = .error e) : NoOverflow e := by
  change Tree.readDir t p = _ at h
  unfold Tree.readDir at h
  split at h <;> cases h <;> nofun

end Tree

theorem getParent_noOverflow {action : String} {e : VfsError}
    (h : VfsPath.getParent action p t = .error e) : NoOverflow e := by
  cases hparent : t.get? p.dropLast with
  | none =>
    simp only [VfsPath.getParent, Tree.existsAt_eq, hparent] at h
    cases h
    intro hoverflow
    cases hoverflow
  | some node =>
    simp only [VfsPath.getParent, Tree.existsAt_eq, hparent, Tree.metadata_of_some hparent] at h
    cases node <;> cases h
    intro hoverflow
    cases hoverflow

theorem VfsPath.createDir_noOverflow (p : Path) :
    FailsWith NoOverflow P (VfsPath.createDir p : VfsM Tree Unit) :=
  (FailsWith.ask fun _ _ _ => getParent_noOverflow).then_any fun _ => Tree.createDir_noOverflow p

theorem VfsPath.createFile_noOverflow (p : Path) :
    FailsWith NoOverflow P (VfsPath.createFile p : VfsM Tree Writer) :=
  (FailsWith.ask fun _ _ _ => getParent_noOverflow).then_any fun _ => Tree.createFile_noOverflow p

theorem askExists_noOverflow (p : Path) :
    FailsWith NoOverflow P (ask fun t : Tree => FileSystem.existsAt t p) := by
  apply FailsWith.ask
  intro t _ e h
  cases h

theorem whenExists_noOverflow {x : VfsM Tree Unit} (hx : FailsWith NoOverflow (fun _ => True) x) :
    FailsWith NoOverflow P (whenExists p x) :=
  (askExists_noOverflow p).then_any fun _ => FailsWith.ite (fun _ => hx) fun _ => FailsWith.pure _

theorem unlessExists_noOverflow {x : VfsM Tree Unit} (hx : FailsWith NoOverflow (fun _ => True) x) :
    FailsWith NoOverflow P (unlessExists p x) :=
  (askExists_noOverflow p).then_any fun _ => FailsWith.ite (fun _ => FailsWith.pure _) fun _ => hx

theorem onUpper_noOverflow {α : Type} {x : VfsM Tree α}
    (hx : FailsWith NoOverflow (fun _ => True) x) : FailsWith NoOverflow S (onUpper x) :=
  FailsWith.onPart (hx.weaken fun _ _ => trivial)

theorem ensureDirs_noOverflow (current : Path) (parts : List Name) :
    FailsWith NoOverflow P (ensureDirs current parts : VfsM Tree Unit) := by
  induction parts generalizing current P with
  | nil => exact FailsWith.pure _
  | cons part rest ih =>
    exact (unlessExists_noOverflow (VfsPath.createDir_noOverflow _)).then_any fun _ => ih _

theorem ensureUpperParents_noOverflow (p : Path) :
    FailsWith NoOverflow S (ensureUpperParents p) :=
  onUpper_noOverflow (ensureDirs_noOverflow _ _)

theorem removeWhiteout_noOverflow (p : Path) : FailsWith NoOverflow S (removeWhiteout p) :=
  onUpper_noOverflow (whenExists_noOverflow (Tree.removeFile_noOverflow _))

theorem createWhiteout_noOverflow (p : Path) : FailsWith NoOverflow S (createWhiteout p) := by
  apply (ensureUpperParents_noOverflow _).then_any
  intro _
  apply onUpper_noOverflow
  apply unlessExists_noOverflow
  exact (VfsPath.createFile_noOverflow _).then_any fun _ => FailsWith.pure _

theorem removeWith_noOverflow {removeUpper : Path → VfsM Tree Unit} (p : Path)
    (hremove : FailsWith NoOverflow (fun _ => True) (removeUpper p)) :
    FailsWith NoOverflow S (removeWith removeUpper p) := by
  apply (onUpper_noOverflow (whenExists_noOverflow hremove)).then_any
  intro _
  refine FailsWith.then_any (FailsWith.ask fun _ _ _ h => by cases h) fun _ => ?_
  exact FailsWith.ite (fun _ => createWhiteout_noOverflow p) fun _ => FailsWith.pure _

theorem removeMarkers_noOverflow (p : Path) : FailsWith NoOverflow P (removeMarkers p) := by
  apply whenExists_noOverflow
  refine FailsWith.then_any (FailsWith.ask fun _ _ _ => Tree.readDir_noOverflow) fun names => ?_
  refine FailsWith.forM (fun m _ => ?_) fun _ _ => Triple.true
  exact FailsWith.ite (fun _ => Tree.removeFile_noOverflow _) fun _ => FailsWith.pure _

theorem createFile_noOverflow (p : Path) : FailsWith NoOverflow S (LayerFS.createFile p) :=
  (ensureUpperParents_noOverflow p).then_any fun _ =>
    (removeWhiteout_noOverflow p).then_any fun _ =>
      onUpper_noOverflow (VfsPath.createFile_noOverflow p)

/-- Where a file is shown at the source, its content can be read. -/
theorem copyFile_noOverflow (src dest : Path) (c : Bytes) :
    FailsWith NoOverflow (fun fs => view fs src = some (.file c)) (LayerFS.copyFile src dest) := by
  intro fs hview e fs' h
  rw [run_copyFile hview] at h
  have hwrite :
      FailsWith NoOverflow (fun _ : Stack => True) (thenWrite (LayerFS.createFile dest) c) :=
    (createFile_noOverflow dest).then_any fun w => onUpper_noOverflow (Tree.writeAll_noOverflow w c)
  exact hwrite fs trivial e fs' h

theorem makeTarget_noOverflow (p : Path) : FailsWith NoOverflow S (makeTarget p) :=
  (ensureUpperParents_noOverflow p).then_any fun _ =>
    (removeWhiteout_noOverflow p).then_any fun _ =>
      onUpper_noOverflow (unlessExists_noOverflow (VfsPath.createDir_noOverflow p))

/-- A listing fails where a file is in its way. -/
theorem layerReadDir_noOverflow {e : VfsError} (h : LayerFS.readDir p fs = .error e) :
    NoOverflow e := by
  by_cases hfile : FileInTheWay fs p
  · rw [hfile.readDir] at h
    cases h
    nofun
  · obtain ⟨l, hl⟩ := exists_readDir hfile
    rw [hl] at h
    cases h

end Calls

/-! ### The two recursions -/

section Levels

variable {E : Stack → Prop}

/-- A copy that stays in reach: every directory it goes into has a path of at most `B` names. -/
theorem CopyLevels.noOverflow {D : Path → Path → Prop} {K J : Path → Path → Stack → Prop}
    (h : CopyLevels D K J E) (hdeep : ∀ src dest fs, D src dest → K src dest fs → src.length ≤ B)
    (frames : Nat) (src dest : Path) (hD : D src dest) (hframes : B < src.length + frames) :
    FailsWith NoOverflow (K src dest) (copyDirRecursive frames src dest) := by
  induction frames generalizing src dest with
  | zero =>
    -- the last frame is not reached: the directory would be too deep
    intro fs hfs
    have := hdeep src dest fs hD hfs
    omega
  | succ frames ih =>
    rw [copyDirRecursive_succ]
    apply (makeTarget_noOverflow dest).bind (h.target src dest hD)
    intro _
    apply (FailsWith.ask fun _ _ _ => layerReadDir_noOverflow).bind
      (readDir_keeps fun fs => h.during src dest fs hD)
    intro entries fs hfs
    -- the entries keep what is known, and none of them overflows
    refine FailsWith.forM (P := J src dest) (E := E) (fun n hn => ?_)
      (fun n hn => h.entry hD (fun n hn => h.triple frames _ _ (h.down src dest n hD hn))
        (hfs.2 n hn)) fs hfs.1.1
    intro fs hfs' e fs' hrun
    rw [run_copyEntry] at hrun
    split at hrun
    · cases hrun
    · rename_i hview
      apply ih _ _ (h.down src dest n hD (hfs.2 n hn)) _ fs
        (h.enter src dest n fs hD (hfs.2 n hn) hview hfs') e fs' hrun
      simp only [List.length_append, List.length_cons, List.length_nil]
      omega
    · exact copyFile_noOverflow _ _ _ fs ‹_› e fs' hrun

/-- The same of a removal. -/
theorem RemoveLevels.noOverflow {D : Path → Prop} {K J M : Path → Stack → Prop}
    (h : RemoveLevels D K J M E) (hdeep : ∀ p fs, D p → K p fs → p.length ≤ B) (frames : Nat)
    (p : Path) (hD : D p) (hframes : B < p.length + frames) :
    FailsWith NoOverflow (K p) (removeDirRecursive frames p) := by
  induction frames generalizing p with
  | zero =>
    intro fs hfs
    have := hdeep p fs hD hfs
    omega
  | succ frames ih =>
    rw [removeDirRecursive_succ]
    apply (FailsWith.ask fun _ _ _ => layerReadDir_noOverflow).bind
      (readDir_keeps fun fs => h.before p fs hD)
    intro entries
    -- behind the entries there is no recursion
    have hrest : FailsWith NoOverflow (fun _ => True)
        (do onUpper (removeMarkers p); LayerFS.removeDir p : VfsM Stack Unit) :=
      (onUpper_noOverflow (removeMarkers_noOverflow p)).then_any fun _ =>
        removeWith_noOverflow p (Tree.removeDir_noOverflow p)
    refine FailsWith.then_any ?_ fun _ => hrest
    intro fs hfs
    refine FailsWith.forM (P := J p) (E := E) (fun n hn => ?_) (fun n hn => ?_) fs
      (h.list p fs entries hD hfs.1.1 hfs.1.2)
    · intro fs hfs' e fs' hrun
      rw [run_removeEntry] at hrun
      split at hrun
      · cases hrun
      · rename_i hview
        apply ih _ (h.down p n hD (hfs.2 n hn)) _ fs (h.enter p n fs hD (hfs.2 n hn) hview hfs')
          e fs' hrun
        simp only [List.length_append, List.length_cons, List.length_nil]
        omega
      · exact removeWith_noOverflow (S := fun _ => True) _ (Tree.removeFile_noOverflow _) fs trivial
          e fs' hrun
    · refine h.entry hD (fun n hn => ?_) (hfs.2 n hn)
      have hchild := h.triple frames (p ++ [n]) (h.down p n hD hn)
      rwa [List.dropLast_concat] at hchild

end Levels

/-! ### How deep the layers are -/

/-- Every entry that a layer has below `src` is at most `B` names below. -/
def Depth (src : Path) (B : Nat) (fs : Stack) : Prop :=
  ∀ r, NoMarker r → (∃ t ∈ layers fs, (t.get? (src ++ r)).isSome) → r.length ≤ B

/-- Layers are finite. -/
theorem exists_depth (fs : Stack) (src : Path) (m : Nat) : ∃ B, m ≤ B ∧ Depth src B fs := by
  let total (t : Tree) : Nat := (t.map.keys.map List.length).sum
  refine ⟨m + ((layers fs).map total).sum, Nat.le_add_right _ _, ?_⟩
  rintro r - ⟨t, ht, hentry⟩
  rw [PathMap.get?, AList.lookup_isSome, AList.mem_keys] at hentry
  calc r.length ≤ (src ++ r).length := by simp
    _ ≤ total t := List.single_le_sum (by simp) _ (List.mem_map_of_mem hentry)
    _ ≤ ((layers fs).map total).sum := List.single_le_sum (by simp) _ (List.mem_map_of_mem ht)
    _ ≤ m + ((layers fs).map total).sum := Nat.le_add_left _ _

/-- What is shown is in some layer. -/
theorem exists_layer_of_view (h : view fs p ≠ none) : ∃ t ∈ layers fs, (t.get? p).isSome := by
  cases hupper : fs.upper.get? p with
  | some n => exact ⟨fs.upper, by simp [layers], by simp [hupper]⟩
  | none =>
    have hlower := existsInLower_of_view hupper h
    rw [existsInLower, List.any_eq_true] at hlower
    obtain ⟨t, ht, hentry⟩ := hlower
    exact ⟨t, by simp [layers, ht], by simpa using hentry⟩

/-- What is stored is below `src` no deeper than it may be. -/
theorem Depth.upd {x : Option Node} (h : Depth src B fs) (hupd : Upd fs fs' q x)
    (hq : x ≠ none → ∀ r, NoMarker r → q = src ++ r → r.length ≤ B) : Depth src B fs' := by
  rintro r hr ⟨t, ht, hentry⟩
  rw [layers, hupd.lower, List.mem_cons] at ht
  rcases ht with rfl | ht
  · by_cases hqr : q = src ++ r
    · -- the entry that was stored
      apply hq _ r hr hqr
      rintro rfl
      rw [← hqr, hupd.get?_self] at hentry
      cases hentry
    · rw [hupd.get?_of_ne (Ne.symm hqr)] at hentry
      exact h r hr ⟨fs.upper, by simp [layers], hentry⟩
  · exact h r hr ⟨t, by simp [layers, ht], hentry⟩

/-- The destination is below the source, and no marker is between them. -/
def Into (src dest : Path) : Prop := ∃ t, t ≠ [] ∧ NoMarker t ∧ dest = src ++ t

/-- Where it is not, the copies of what is below the source come to lie no deeper there. -/
theorem length_le_of_not_into {r w : Path} (hinto : ¬ Into src dest) (hw : NoMarker w)
    (hdest : dest.length ≤ B) (hr : r.length ≤ B) (hpre : src ++ w <+: dest ++ r) :
    w.length ≤ B := by
  rcases List.prefix_or_prefix_of_prefix ((List.prefix_append src w).trans hpre)
    (List.prefix_append dest r) with ⟨t, rfl⟩ | ⟨t, rfl⟩
  · -- the destination is the source, or between them there is a marker
    rw [List.append_assoc, List.prefix_append_right_inj] at hpre
    rcases List.prefix_or_prefix_of_prefix hpre (List.prefix_append t r) with hwt | htw
    · have := hwt.length_le
      simp only [List.length_append] at hdest
      omega
    · have ht : t = [] := by
        by_contra hne
        exact hinto ⟨t, hne, hw.of_isPrefix htw, rfl⟩
      rw [ht, List.nil_append] at hpre
      exact hpre.length_le.trans hr
  · -- the source is below the destination
    rw [List.append_assoc, List.prefix_append_right_inj] at hpre
    have := hpre.length_le
    simp only [List.length_append] at this
    omega

/-- What is known of a directory gone into: no layer is too deep, nor is the directory. -/
def Reached (src : Path) (B : Nat) (p : Path) (fs : Stack) : Prop :=
  Depth src B fs ∧ p.length ≤ src.length + B

/-- A child that is shown is not too deep either. -/
theorem Depth.reached {r : Path} (h : Depth src B fs) (hr : NoMarker r)
    (hview : view fs (src ++ r) ≠ none) : Reached src B (src ++ r) fs := by
  refine ⟨h, ?_⟩
  rw [List.length_append, Nat.add_le_add_iff_left]
  exact h r hr (exists_layer_of_view hview)

theorem Reached.puts {r : Path} (hinto : ¬ Into src dest) (hdest : dest.length ≤ B)
    (h : Reached src B (src ++ r) fs) (hputs : Puts (dest ++ r) fs fs') :
    Reached src B (src ++ r) fs' := by
  have hr : r.length ≤ B := by simpa using h.2
  refine ⟨?_, h.2⟩
  cases hputs with
  | mkdir q hq _ _ _ hupd =>
    apply h.1.upd hupd
    rintro - w hw rfl
    exact length_le_of_not_into hinto hw hdest hr hq
  | unmark _ hupd => exact h.1.upd hupd fun hne => absurd rfl hne
  | write c _ _ _ hupd =>
    apply h.1.upd hupd
    intro _ w hw he
    exact length_le_of_not_into hinto hw hdest hr (he ▸ List.prefix_refl _)

theorem Depth.cuts {r : Path} (h : Depth src B fs) (hr : r.length ≤ B + 1)
    (hcuts : Cuts (src ++ r) fs fs') : Depth src B fs' := by
  cases hcuts with
  | mkdir q hq _ _ _ hupd =>
    -- a directory for the whiteout, above what is removed
    apply h.upd hupd
    rintro - w - rfl
    have hlen := hq.length_le
    rw [List.length_dropLast, List.length_append, List.length_append] at hlen
    omega
  | drop _ _ _ hupd => exact h.upd hupd fun hne => absurd rfl hne
  | mark _ _ _ hupd =>
    -- a whiteout is no path without markers
    apply h.upd hupd
    intro _ w hw he
    rcases List.eq_nil_or_concat' w with rfl | ⟨w, n, rfl⟩
    · exact Nat.zero_le B
    · have hmarker := isMarker_getLastD_whiteoutPath (src ++ r)
      rw [he, ← List.append_assoc, List.getLastD_concat] at hmarker
      exact absurd hmarker (hw n (by simp))

theorem copyLevels_reached (hinto : ¬ Into src dest) (hdest : dest.length ≤ B) :
    CopyLevels (fun s d => ∃ r, NoMarker r ∧ s = src ++ r ∧ d = dest ++ r)
      (fun s _ => Reached src B s) (fun s _ => Reached src B s) (Depth src B) := by
  have hputs : ∀ r fs fs', Reached src B (src ++ r) fs → Puts (dest ++ r) fs fs' →
      Reached src B (src ++ r) fs' := fun _ _ _ h => h.puts hinto hdest
  constructor
  case down =>
    rintro _ _ n ⟨r, hr, rfl, rfl⟩ hn
    exact ⟨r ++ [n], hr.concat hn, by simp, by simp⟩
  case before => exact fun _ _ _ _ h => h.1
  case during => exact fun _ _ _ _ h => h.1
  case target =>
    rintro _ _ ⟨r, -, rfl, rfl⟩
    exact (makeTarget_keeps (hputs r)).weaken (fun _ h => h) (fun _ _ h => h) fun _ h => h.1
  case enter =>
    rintro _ _ n fs ⟨r, hr, rfl, rfl⟩ hn hview h
    rw [List.append_assoc] at hview ⊢
    exact h.1.reached (hr.concat hn) (by simp [hview])
  case leave =>
    rintro _ _ n fs - - h
    refine ⟨h.1, (Nat.le_succ _).trans ?_⟩
    simpa using h.2
  case file =>
    rintro _ _ n c ⟨r, hr, rfl, rfl⟩ hn
    refine Triple.of_forall fun fs ⟨h, hview⟩ => ?_
    rw [List.append_assoc] at hview
    have hchild := h.1.reached (hr.concat hn) (by simp [hview])
    rw [List.append_assoc dest]
    refine (copyFile_keeps (hputs (r ++ [n])) _).weaken (by rintro _ rfl; exact hchild) ?_
      fun _ h => h.1
    exact fun _ fs' h' => ⟨h'.1, h.2⟩

theorem removeLevels_reached :
    RemoveLevels (fun p => ∃ r, NoMarker r ∧ p = src ++ r) (Reached src B) (Reached src B)
      (Reached src B) (Depth src B) := by
  constructor
  case down =>
    rintro _ n ⟨r, hr, rfl⟩ hn
    exact ⟨r ++ [n], hr.concat hn, by simp⟩
  case before => exact fun _ _ _ h => h.1
  case list => exact fun _ _ _ _ h _ => h
  case enter =>
    rintro _ n fs ⟨r, hr, rfl⟩ hn hview h
    rw [List.append_assoc] at hview ⊢
    exact h.1.reached (hr.concat hn) (by simp [hview])
  case file =>
    rintro _ n c ⟨r, -, rfl⟩ -
    refine (removeFile_keeps (I := Reached src B (src ++ r)) fun fs fs' h hcuts => ⟨?_, h.2⟩).weaken
      (fun _ h => h.1) (fun _ _ h => h) fun _ h => h.1
    rw [List.append_assoc] at hcuts
    apply h.1.cuts _ hcuts
    simpa using h.2
  case markers =>
    rintro p -
    refine (removeMarkers_keeps (I := Reached src B p) fun m _ fs fs' h _ _ hupd =>
      ⟨?_, h.2⟩).weaken (fun _ h => h) (fun _ _ h => h) fun _ h => h.1
    exact h.1.upd hupd fun hne => absurd rfl hne
  case dir =>
    rintro _ ⟨r, -, rfl⟩
    refine (removeDir_keeps (I := Reached src B (src ++ r)) fun fs fs' h hcuts => ⟨?_, h.2⟩).weaken
      (fun _ h => h) ?_ fun _ h => h.1
    · have hlen := h.2
      rw [List.length_append] at hlen
      exact h.1.cuts (by omega) hcuts
    · intro _ fs h
      exact ⟨h.1, (List.dropLast_prefix _).length_le.trans h.2⟩

/-! ### Enough frames -/

/-- Where the destination is not below the source, the depth of the layers bounds a copy. -/
theorem exists_noOverflow_copyDirRecursive (fs : Stack) (hinto : ¬ Into src dest) :
    ∃ N, ∀ frames ≥ N, FailsWith NoOverflow (· = fs) (copyDirRecursive frames src dest) := by
  obtain ⟨B, hdest, hdepth⟩ := exists_depth fs src dest.length
  refine ⟨B + 1, fun frames hframes => ?_⟩
  have hstart : Reached src B src fs := ⟨hdepth, Nat.le_add_right _ _⟩
  have hroom : src.length + B < src.length + frames := by omega
  exact ((copyLevels_reached hinto hdest).noOverflow (fun _ _ _ _ h => h.2) frames src dest
    ⟨[], by simp [NoMarker], by simp, by simp⟩ hroom).weaken (by rintro _ rfl; exact hstart)

/-- A removal is bounded always. -/
theorem exists_noOverflow_removeDirRecursive (fs : Stack) (src : Path) :
    ∃ N, ∀ frames ≥ N, FailsWith NoOverflow (· = fs) (removeDirRecursive frames src) := by
  obtain ⟨B, -, hdepth⟩ := exists_depth fs src 0
  refine ⟨B + 1, fun frames hframes => ?_⟩
  have hstart : Reached src B src fs := ⟨hdepth, Nat.le_add_right _ _⟩
  have hroom : src.length + B < src.length + frames := by omega
  exact (removeLevels_reached.noOverflow (fun _ _ _ h => h.2) frames src
    ⟨[], by simp [NoMarker], by simp⟩ hroom).weaken (by rintro _ rfl; exact hstart)

end Rspacefs
