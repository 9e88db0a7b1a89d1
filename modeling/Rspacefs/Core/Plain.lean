import Rspacefs.Core.Pairs
import Rspacefs.Lib.Steps

/-!
# A plain filesystem

What an overlay is for: a client sees one directory tree, and does not know of layers, whiteouts
and copies. Here is that tree, a function from paths to entries, and what each operation of a
client does to it where a plain filesystem allows it.

## Main definitions

* `Plain`, `Plain.Wf` — the tree, and that it is one
* `Plain.Step` — an operation that a plain filesystem allows, and what it leaves

## Main results

* `Plain.Step.wf` — an allowed operation leaves a tree
-/

namespace Rspacefs

open Lib LayerFS

/-- What is at each path. -/
abbrev Plain := Path → Option Node

namespace Plain

variable {F F' : Plain} {p q r s : Path} {n : Node} {op : Op}

/-- There is a root, and everything else is in a directory. -/
structure Wf (F : Plain) : Prop where
  root : F [] = some .dir
  parent : ∀ p n, F (p ++ [n]) ≠ none → F p = some .dir

/-- The tree with everything at and below `s` at `p`. -/
def moved (F : Plain) (s p : Path) : Plain := fun q =>
  if p <+: q then F (s ++ q.drop p.length) else if s <+: q then none else F q

/-- An operation that a plain filesystem allows. -/
inductive Step (F : Plain) : Op → Plain → Prop
  | createFile {p : Path} {w : Bytes} (hparent : F p.dropLast = some .dir)
      (hfree : F p ≠ some .dir) :
      Step F (.createFile p w) (Function.update F p (some (.file w)))
  | createDir {p : Path} (hparent : F p.dropLast = some .dir) (hfree : F p = none) :
      Step F (.createDir p) (Function.update F p (some .dir))
  | appendFile {p : Path} {c w : Bytes} (hfile : F p = some (.file c)) :
      Step F (.appendFile p w) (Function.update F p (some (.file (c ++ w))))
  | removeFile {p : Path} {c : Bytes} (hfile : F p = some (.file c)) :
      Step F (.removeFile p) (Function.update F p none)
  | removeDir {p : Path} (hne : p ≠ []) (hdir : F p = some .dir)
      (hempty : ∀ a, F (p ++ [a]) = none) :
      Step F (.removeDir p) (Function.update F p none)
  | copyFile {s p : Path} {c : Bytes} (hsource : F s = some (.file c))
      (hparent : F p.dropLast = some .dir) (hfree : F p = none) :
      Step F (.copyFile s p) (Function.update F p (some (.file c)))
  | moveFile {s p : Path} {c : Bytes} (hsource : F s = some (.file c))
      (hparent : F p.dropLast = some .dir) (hfree : F p = none) :
      Step F (.moveFile s p) (Function.update (Function.update F p (some (.file c))) s none)
  | moveDir {frames : Nat} {s p : Path} (hsource : F s = some .dir)
      (hparent : F p.dropLast = some .dir) (hfree : F p = none) (hapart : ¬ s <+: p)
      -- one stack frame for each level of the source
      (hframes : ∀ r, F (s ++ r) ≠ none → r.length < frames) :
      Step F (.moveDir frames s p) (F.moved s p)

/-! ### It stays a tree -/

namespace Wf

variable (h : F.Wf)
include h

theorem dir_above (hqp : q <+: p) (hne : q ≠ p) (hp : F p ≠ none) : F q = some .dir := by
  obtain ⟨r, rfl⟩ := hqp
  induction r using List.reverseRecOn with
  | nil => exact absurd (List.append_nil q).symm hne
  | append_singleton r n ih =>
    rw [← List.append_assoc] at hp
    have hdir := h.parent (q ++ r) n hp
    by_cases hr : q = q ++ r
    · rwa [← hr] at hdir
    · exact ih hr (by simp [hdir])

/-- Nothing is below what is absent or a file. -/
theorem eq_none_below (hqp : q <+: p) (hne : q ≠ p) (hq : F q ≠ some .dir) : F p = none := by
  by_contra hp
  exact hq (h.dir_above hqp hne hp)

theorem ne_nil (hp : F p ≠ some .dir) : p ≠ [] := by
  rintro rfl
  exact hp h.root

theorem parent_of_file {c : Bytes} (hfile : F p = some (.file c)) : F p.dropLast = some .dir := by
  have hne := ne_of_prefix_dropLast (h.ne_nil (p := p) (by simp [hfile])) (List.prefix_refl _)
  exact h.dir_above (List.dropLast_prefix p) hne (by simp [hfile])

/-- Storing an entry where there is no directory. -/
theorem put (hparent : F p.dropLast = some .dir) (hfree : F p ≠ some .dir) (n : Node) :
    Wf (Function.update F p (some n)) := by
  have hne := h.ne_nil hfree
  refine ⟨by rw [Function.update_of_ne hne.symm, h.root], fun q a hqa => ?_⟩
  by_cases hp : q ++ [a] = p
  · subst hp
    rw [List.dropLast_concat] at hparent
    rwa [Function.update_of_ne (by simp)]
  · rw [Function.update_of_ne hp] at hqa
    have hq := h.parent q a hqa
    rwa [Function.update_of_ne]
    rintro rfl
    exact hfree hq

/-- Removing an entry with nothing below it. -/
theorem drop (hne : p ≠ []) (hempty : ∀ a, F (p ++ [a]) = none) :
    Wf (Function.update F p none) := by
  refine ⟨by rw [Function.update_of_ne hne.symm, h.root], fun q a hqa => ?_⟩
  have hqa' : F (q ++ [a]) ≠ none := by
    intro hnone
    apply hqa
    by_cases hp : q ++ [a] = p
    · rw [hp, Function.update_self]
    · rw [Function.update_of_ne hp, hnone]
  rw [Function.update_of_ne, h.parent q a hqa']
  rintro rfl
  exact hqa' (hempty a)

theorem drop_file {c : Bytes} (hfile : F p = some (.file c)) : Wf (Function.update F p none) := by
  have hdir : F p ≠ some .dir := by simp [hfile]
  exact h.drop (h.ne_nil hdir) fun a => h.eq_none_below (List.prefix_append p [a]) (by simp) hdir

theorem moved (hsource : F s = some .dir) (hparent : F p.dropLast = some .dir) (hfree : F p = none)
    (hapart : ¬ s <+: p) : Wf (F.moved s p) := by
  have hne : p ≠ [] := h.ne_nil (by simp [hfree])
  have hs : s ≠ [] := by
    rintro rfl
    exact hapart List.nil_prefix
  refine ⟨?_, fun q a hqa => ?_⟩
  · rw [Plain.moved, if_neg (by simpa using hne), if_neg (by simpa using hs), h.root]
  by_cases hpq : p <+: q
  · -- inside the destination: as it was inside the source
    obtain ⟨r, rfl⟩ := hpq
    rw [Plain.moved, if_pos ((List.prefix_append p r).trans (List.prefix_append _ _)),
      List.append_assoc, List.drop_left, ← List.append_assoc] at hqa
    rw [Plain.moved, if_pos (List.prefix_append p r), List.drop_left]
    exact h.parent _ _ hqa
  · by_cases hp : p <+: q ++ [a]
    · -- the destination itself, whose parent stays
      obtain rfl : p = q ++ [a] := (List.prefix_concat_iff.mp hp).resolve_right hpq
      rw [List.dropLast_concat] at hparent
      rw [Plain.moved, if_neg hpq, if_neg fun hsq => hapart (hsq.trans (List.prefix_append _ _)),
        hparent]
    · rw [Plain.moved, if_neg hp] at hqa
      split at hqa
      · exact absurd rfl hqa
      · rename_i hsq
        rw [Plain.moved, if_neg hpq, if_neg fun hsq' => hsq (hsq'.trans (List.prefix_append _ _)),
          h.parent q a hqa]

end Wf

theorem Step.wf (h : F.Step op F') (hF : F.Wf) : F'.Wf := by
  cases h with
  | createFile hparent hfree => exact hF.put hparent hfree _
  | createDir hparent hfree => exact hF.put hparent (by simp [hfree]) _
  | appendFile hfile => exact hF.put (hF.parent_of_file hfile) (by simp [hfile]) _
  | removeFile hfile => exact hF.drop_file hfile
  | removeDir hne _ hempty => exact hF.drop hne hempty
  | copyFile _ hparent hfree => exact hF.put hparent (by simp [hfree]) _
  | @moveFile s p c hsource hparent hfree =>
    have hsp : s ≠ p := by
      rintro rfl
      rw [hfree] at hsource
      cases hsource
    refine (hF.put hparent (by simp [hfree]) (.file c)).drop_file (c := c) ?_
    rw [Function.update_of_ne hsp, hsource]
  | moveDir hsource hparent hfree hapart => exact hF.moved hsource hparent hfree hapart

end Plain

end Rspacefs
