import Rspacefs.Core.CopyTree
import Rspacefs.Core.Halting
import Rspacefs.Lib.Winding

/-!
# A directory copied into itself

`copy_dir_recursive` to a directory below its source finds the copy that it has begun, and goes
into it. If `t` leads from the source to the destination, it copies what is at `t` to `t ++ t`,
what is there to `t ++ t ++ t`, and so on; of the directories on this way it copies, one after
the other, what they list before the next name. Paths are relative to the source here, and the
copy of `r` is at `t ++ r`.

## Main definitions

* `inTurn` — what is at a path when it is its turn to be copied
* `Due` — the path gets its turn, if what comes before can be copied
* `Obstacle` — it cannot be copied itself
* `Endless` — all the way there are directories, and no obstacles
* `Laid` — what the upper layer holds when some of the paths are copied, and others are not

## Main results

* `Laid.view_eq` — the layers show what they are to show
* `outcome_copyDirRecursive` — beside the way a copy returns exactly if there is no obstacle
-/

namespace Rspacefs

open Lib LayerFS

variable {fs fs' fs₁ : Stack} {src t p q r x d : Path} {n m : Name} {node : Node} {c : Bytes}
  {S A B : Set Path}

/-! ### What is there to be copied -/

/-- What a copy leaves where the upper layer had `old`: it makes a directory if there is nothing. -/
def laid (old : Option Node) : Node → Node
  | .dir => old.getD .dir
  | .file c => .file c

theorem length_drop_lt (ht : t ≠ []) (h : t <+: r) : (r.drop t.length).length < r.length := by
  have hpos := List.length_pos_iff.mpr ht
  have hle := h.length_le
  rw [List.length_drop]
  omega

open Classical in
/-- What the layers show at `src ++ r` when it is its turn. If `r` is `t ++ q` and `q` was copied
before, that is the copy; else it is what they showed from the start. -/
noncomputable def inTurn (fs : Stack) (src t : Path) (r : Path) : Option Node :=
  if r = [] then some .dir
  else if _h : t ≠ [] ∧ t <+: r then
    if (∃ k, MetAt t k (r.drop t.length)) ∧ NoMarker (r.drop t.length) ∧
        ∀ q, q <+: r.drop t.length → q ≠ r.drop t.length → inTurn fs src t q = some .dir then
      (inTurn fs src t (r.drop t.length)).elim (view fs (src ++ r)) fun node =>
        some (laid (fs.upper.get? (src ++ r)) node)
    else view fs (src ++ r)
  else view fs (src ++ r)
termination_by r.length
decreasing_by
  · exact ‹q <+: _›.length_le.trans_lt (length_drop_lt _h.1 _h.2)
  · exact length_drop_lt _h.1 _h.2

/-- The path is met on the way, or beside it where that is listed earlier; something is shown
there, and directories above. -/
structure Due (fs : Stack) (src t r : Path) : Prop where
  turn : ∃ k, MetAt t k r
  plain : NoMarker r
  above : ∀ q, q <+: r → q ≠ r → inTurn fs src t q = some .dir
  shown : inTurn fs src t r ≠ none

/-- The path cannot be copied: the copy cannot be put where it is to go, the directory cannot be
listed, or the file would replace a directory. -/
def Obstacle (fs : Stack) (src t r : Path) : Prop :=
  Shut fs (src ++ (t ++ r)) ∨
    inTurn fs src t r = some .dir ∧ FileInTheWay fs (src ++ r) ∨
      (∃ c, inTurn fs src t r = some (.file c)) ∧ fs.upper.get? (src ++ (t ++ r)) = some .dir

/-- The copies find directories all the way, and nothing that keeps them from going on. -/
structure Endless (fs : Stack) (src t : Path) : Prop where
  way : ∀ w, OnTheWay t w → inTurn fs src t w = some .dir
  free : ∀ r, Due fs src t r → ¬ Obstacle fs src t r

@[simp] theorem inTurn_nil : inTurn fs src t [] = some .dir := by
  rw [inTurn, if_pos rfl]

/-- What was copied before is shown. -/
theorem inTurn_append (ht : t ≠ []) (h : Due fs src t r) :
    inTurn fs src t (t ++ r) =
      (inTurn fs src t r).map (laid (fs.upper.get? (src ++ (t ++ r)))) := by
  obtain ⟨node, hnode⟩ := Option.ne_none_iff_exists'.mp h.shown
  rw [inTurn, if_neg (by simp [ht]), dif_pos ⟨ht, List.prefix_append t r⟩, List.drop_left,
    if_pos ⟨h.turn, h.plain, h.above⟩, hnode]
  rfl

/-- Else what there was. -/
theorem inTurn_of_not_due (hr : r ≠ []) (h : ∀ q, r = t ++ q → ¬ Due fs src t q) :
    inTurn fs src t r = view fs (src ++ r) := by
  rw [inTurn, if_neg hr]
  split
  · rename_i hpre
    split
    · rename_i hall
      cases hnode : inTurn fs src t (r.drop t.length) with
      | none => rfl
      | some node =>
        have hsplit : r = t ++ r.drop t.length := by
          conv_lhs => rw [← List.take_append_drop t.length r, ← List.prefix_iff_eq_take.mp hpre.2]
        exact absurd ⟨hall.1, hall.2.1, hall.2.2, by simp [hnode]⟩ (h _ hsplit)
    · rfl
  · rfl

theorem exists_inTurn_append (ht : t ≠ []) (h : Due fs src t r) :
    ∃ node, inTurn fs src t (t ++ r) = some node := by
  obtain ⟨node, hnode⟩ := Option.ne_none_iff_exists'.mp h.shown
  exact ⟨_, by rw [inTurn_append ht h, hnode]; rfl⟩

/-- A directory is not laid over a file. -/
theorem get?_ne_file_of_inTurn (ht : t ≠ []) (h : Due fs src t r)
    (hdir : inTurn fs src t (t ++ r) = some .dir) :
    fs.upper.get? (src ++ (t ++ r)) ≠ some (.file c) := by
  intro hfile
  obtain ⟨node, hnode⟩ := Option.ne_none_iff_exists'.mp h.shown
  rw [inTurn_append ht h, hnode, hfile] at hdir
  cases node <;> cases hdir

/-! ### Paths below the source -/

section

variable (hx : NoMarker x) (hne : x ≠ [])
include hx hne

theorem append_ne_whiteoutPath : src ++ x ≠ whiteoutPath q := by
  obtain ⟨d, n, rfl⟩ := (List.eq_nil_or_concat' x).resolve_left hne
  intro h
  have hm := isMarker_getLastD_whiteoutPath q
  rw [← h, ← List.append_assoc, List.getLastD_concat] at hm
  exact hx n (by simp) hm

theorem append_ne_opaquePath : src ++ x ≠ opaquePath d := by
  obtain ⟨e, n, rfl⟩ := (List.eq_nil_or_concat' x).resolve_left hne
  rw [opaquePath, ← List.append_assoc]
  intro h
  obtain ⟨-, hname⟩ := List.append_inj' h rfl
  cases hname
  exact hx _ (by simp) isMarker_opaqueWhiteout

theorem whiteoutPath_append_ne_opaquePath : whiteoutPath (src ++ x) ≠ opaquePath d := by
  obtain ⟨e, n, rfl⟩ := (List.eq_nil_or_concat' x).resolve_left hne
  rw [opaquePath, ← List.append_assoc, whiteoutPath_concat]
  intro h
  obtain ⟨-, hname⟩ := List.append_inj' h rfl
  exact whiteout_ne_opaqueWhiteout (hx n (by simp)) (List.singleton_inj.mp hname)

end

/-! ### What the copies leave -/

/-- The upper layer holds the copies of the paths in `S`, and else what it held. -/
structure Laid (fs₁ : Stack) (src t : Path) (S : Set Path) (fs : Stack) : Prop where
  due : ∀ r ∈ S, Due fs₁ src t r
  lower : fs.lower = fs₁.lower
  entry : ∀ r ∈ S, fs.upper.get? (src ++ (t ++ r)) = inTurn fs₁ src t (t ++ r)
  marker : ∀ r ∈ S, fs.upper.get? (whiteoutPath (src ++ (t ++ r))) = none
  rest : ∀ q, (∀ r ∈ S, q ≠ src ++ (t ++ r) ∧ q ≠ whiteoutPath (src ++ (t ++ r))) →
    fs.upper.get? q = fs₁.upper.get? q

namespace Laid

/-- What is no copy is as it was. -/
theorem get?_rest (h : Laid fs₁ src t S fs) (hx : NoMarker x) (hne : x ≠ [])
    (hout : ∀ r ∈ S, x ≠ t ++ r) : fs.upper.get? (src ++ x) = fs₁.upper.get? (src ++ x) :=
  h.rest _ fun r hr =>
    ⟨fun he => hout r hr (List.append_cancel_left he), append_ne_whiteoutPath hx hne⟩

theorem plain_target (h : Laid fs₁ src t S fs) (hmark : NoMarker t) (hr : r ∈ S) :
    NoMarker (t ++ r) :=
  hmark.append (h.due r hr).plain

variable (ht : t ≠ []) (hmark : NoMarker t)
include ht

/-- Nothing changes above the destination. -/
theorem get?_above (h : Laid fs₁ src t S fs) (hlt : q.length < (src ++ t).length) :
    fs.upper.get? q = fs₁.upper.get? q := by
  have hlong : ∀ r, q.length < (src ++ (t ++ r)).length := by
    intro r
    simp only [List.length_append] at hlt ⊢
    omega
  refine h.rest q fun r _ => ⟨?_, ?_⟩
  · rintro rfl
    exact absurd (hlong r) (lt_irrefl _)
  · rintro rfl
    have hlen := hlong r
    rw [length_whiteoutPath (by simp [ht])] at hlen
    exact absurd hlen (lt_irrefl _)

include hmark

theorem get?_whiteoutPath (h : Laid fs₁ src t S fs) (hne : x ≠ []) (hout : ∀ r ∈ S, x ≠ t ++ r) :
    fs.upper.get? (whiteoutPath (src ++ x)) = fs₁.upper.get? (whiteoutPath (src ++ x)) := by
  refine h.rest _ fun r hr => ⟨?_, fun he => hout r hr ?_⟩
  · exact (append_ne_whiteoutPath (h.plain_target hmark hr) (by simp [ht])).symm
  · exact List.append_cancel_left (whiteoutPath_inj (by simp [hne]) (by simp [ht]) he)

theorem get?_opaquePath (h : Laid fs₁ src t S fs) (d : Path) :
    fs.upper.get? (opaquePath d) = fs₁.upper.get? (opaquePath d) := by
  refine h.rest _ fun r hr => ?_
  have hplain := h.plain_target hmark hr
  exact ⟨(append_ne_opaquePath hplain (by simp [ht])).symm,
    (whiteoutPath_append_ne_opaquePath hplain (by simp [ht])).symm⟩

/-- A path whose own copy, if it is one, is made already is shown as it is to be. -/
theorem view_eq (h : Laid fs₁ src t S fs) (hx : NoMarker x) (hne : x ≠ [])
    (hdone : ∀ q, x = t ++ q → Due fs₁ src t q → q ∈ S) :
    view fs (src ++ x) = inTurn fs₁ src t x := by
  by_cases hcopy : ∃ q ∈ S, x = t ++ q
  · obtain ⟨q, hq, rfl⟩ := hcopy
    obtain ⟨node, hnode⟩ := exists_inTurn_append ht (h.due q hq)
    rw [hnode]
    exact view_of_upper (Tree.hides_eq_false.mpr (h.marker q hq)) ((h.entry q hq).trans hnode)
  · push Not at hcopy
    rw [inTurn_of_not_due hne fun q he hq => hcopy q (hdone q he hq) he]
    exact view_of_agree h.lower (h.get?_rest hx hne hcopy)
      (h.get?_whiteoutPath ht hmark hne hcopy) (h.get?_opaquePath ht hmark)

/-- Whether a directory can be listed does not change. -/
theorem fileInTheWay_iff (h : Laid fs₁ src t S fs) (hdest : (fs₁.upper.get? (src ++ t)).isSome)
    (hx : NoMarker x) (hdir : inTurn fs₁ src t x = some .dir)
    (hdone : ∀ q, x = t ++ q → Due fs₁ src t q → q ∈ S) :
    FileInTheWay fs (src ++ x) ↔ FileInTheWay fs₁ (src ++ x) := by
  have hnone : (∀ c, fs.upper.get? (src ++ x) ≠ some (.file c)) ∧
      ∀ c, fs₁.upper.get? (src ++ x) ≠ some (.file c) := by
    by_cases hne : x = []
    · -- the source is above the destination
      obtain ⟨node, hnode⟩ := Option.isSome_iff_exists.mp hdest
      have hsrc : fs₁.upper.get? src = some .dir :=
        Tree.get?_of_isPrefix (List.prefix_append src t) (by simp [ht]) hnode
      rw [hne, List.append_nil, h.get?_above ht (by simp [List.length_pos_iff.mpr ht]), hsrc]
      simp
    · have hview := (h.view_eq ht hmark hx hne hdone).trans hdir
      have hfile : ∀ c, fs.upper.get? (src ++ x) ≠ some (.file c) := by
        intro c hc
        rw [view_of_upper (hides_of_view hview) hc] at hview
        cases hview
      refine ⟨hfile, fun c hc => ?_⟩
      by_cases hcopy : ∃ q ∈ S, x = t ++ q
      · obtain ⟨q, hq, rfl⟩ := hcopy
        exact get?_ne_file_of_inTurn ht (h.due q hq) hdir hc
      · push Not at hcopy
        exact hfile c ((h.get?_rest hx hne hcopy).trans hc)
  simp only [FileInTheWay, hnone.1, hnone.2, exists_false, false_or, h.lower,
    h.get?_opaquePath ht hmark]

/-- Nor does whether the next copy can be put where it is to go. -/
theorem shut_iff (h : Laid fs₁ src t S fs) (hne : r ≠ []) (hnew : r ∉ S)
    (habove : ∀ q, q <+: r → q ≠ r → q ∈ S)
    (hdirs : ∀ q, q <+: r → q ≠ r → inTurn fs₁ src t q = some .dir) :
    Shut fs (src ++ (t ++ r)) ↔ Shut fs₁ (src ++ (t ++ r)) := by
  have hmarker := h.get?_whiteoutPath (x := t ++ r) ht hmark (by simp [hne])
    fun q hq he => hnew (List.append_cancel_left he ▸ hq)
  have hsplit : (src ++ (t ++ r)).dropLast = src ++ t ++ r.dropLast := by
    rw [← List.append_assoc, List.dropLast_append_of_ne_nil hne]
  -- above the copy there are copies of directories, and what is above the destination
  have hfile : ∀ q c, q <+: src ++ t ++ r.dropLast →
      (fs.upper.get? q = some (.file c) ↔ fs₁.upper.get? q = some (.file c)) := by
    intro q c hq
    by_cases hbelow : src ++ t <+: q
    · obtain ⟨q, rfl⟩ := hbelow
      rw [List.prefix_append_right_inj] at hq
      have hqr := hq.trans (List.dropLast_prefix r)
      have hqne : q ≠ r := ne_of_prefix_dropLast hne hq
      have hqS := habove q hqr hqne
      rw [List.append_assoc, h.entry q hqS, inTurn_append ht (h.due q hqS), hdirs q hqr hqne,
        Option.map_some, laid]
      cases fs₁.upper.get? (src ++ (t ++ q)) <;> simp
    · have hlt : q.length < (src ++ t).length := by
        by_contra hle
        apply hbelow
        exact List.prefix_of_prefix_length_le (List.prefix_append _ _) hq (by omega)
      rw [h.get?_above ht hlt]
  rw [Shut, Shut, Blocked, Blocked, hmarker, hsplit]
  refine or_congr_left (exists_congr fun q => exists_congr fun c => ?_)
  exact and_congr_right fun hq => hfile q c hq

/-- One more path is copied. -/
theorem placed (h : Laid fs₁ src t S fs) (hdue : Due fs₁ src t r) (hne : r ≠ [])
    (habove : ∀ q, q <+: r → q ≠ r → q ∈ S) (hnode : inTurn fs₁ src t (t ++ r) = some node)
    (hplaced : Placed fs fs' (src ++ (t ++ r)) node) : Laid fs₁ src t (insert r S) fs' := by
  have hplain : NoMarker (t ++ r) := hmark.append hdue.plain
  have hroot : t ++ r ≠ [] := by simp [ht]
  -- the directories above are there already
  have hsame : ∀ q, q ≠ src ++ (t ++ r) → q ≠ whiteoutPath (src ++ (t ++ r)) →
      fs'.upper.get? q = fs.upper.get? q := by
    intro q hq hqm
    refine (hplaced.touched q hq hqm).resolve_right ?_
    rintro ⟨hnone, -, -, hpre⟩
    have hparent : r.dropLast ∈ S :=
      habove _ (List.dropLast_prefix r) (ne_of_prefix_dropLast hne (List.prefix_refl _))
    obtain ⟨m, hm⟩ := exists_inTurn_append ht (h.due _ hparent)
    have hsome : (fs.upper.get? q).isSome := by
      apply PathMap.isSome_of_isPrefix (hpre.trans ?_) (Option.isSome_of_eq_some
        ((h.entry _ hparent).trans hm))
      rw [← List.append_assoc, List.dropLast_append_of_ne_nil hne, List.append_assoc]
    rw [hnone] at hsome
    cases hsome
  refine ⟨?_, hplaced.lower.trans h.lower, ?_, ?_, ?_⟩
  · rintro q (rfl | hq)
    · exact hdue
    · exact h.due q hq
  · intro q hq
    by_cases hqr : q = r
    · rw [hqr, hplaced.entry, hnode]
    · have hqS : q ∈ S := hq.resolve_left hqr
      rw [hsame _ (by simpa using hqr), h.entry q hqS]
      exact append_ne_whiteoutPath (h.plain_target hmark hqS) (by simp [ht])
  · intro q hq
    by_cases hqr : q = r
    · rw [hqr, hplaced.marker]
    · have hqS : q ∈ S := hq.resolve_left hqr
      rw [hsame, h.marker q hqS]
      · exact (append_ne_whiteoutPath hplain hroot).symm
      · intro he
        have hinj := whiteoutPath_inj (by simp [ht]) (by simp [ht]) he
        exact hqr (List.append_cancel_left (List.append_cancel_left hinj))
  · intro q hq
    obtain ⟨hqr, hqm⟩ := hq r (Set.mem_insert r S)
    rw [hsame q hqr hqm]
    exact h.rest q fun s hs => hq s (Set.mem_insert_of_mem r hs)

/-! ### One copy -/

/-- A directory is made, unless there is no place for it. -/
theorem ends_makeTarget (h : Laid fs₁ src t S fs) (hdue : Due fs₁ src t r) (hne : r ≠ [])
    (hnew : r ∉ S) (habove : ∀ q, q <+: r → q ≠ r → q ∈ S)
    (hdir : inTurn fs₁ src t r = some .dir) :
    Ends ((makeTarget (src ++ (t ++ r))).run fs)
      (fun _ fs' => ¬ Shut fs₁ (src ++ (t ++ r)) ∧ Laid fs₁ src t (insert r S) fs')
      (fun _ => Shut fs₁ (src ++ (t ++ r))) := by
  have hshut := h.shut_iff ht hmark hne hnew habove hdue.above
  cases hrun : (makeTarget (src ++ (t ++ r))).run fs with
  | error e fs' =>
    by_contra hfree
    obtain ⟨a, fs'', hok⟩ := returns_makeTarget_iff.mpr (mt hshut.mp hfree)
    rw [hrun] at hok
    cases hok
  | ok a fs' =>
    refine ⟨mt hshut.mpr (returns_makeTarget_iff.mp ⟨a, fs', hrun⟩), ?_⟩
    have hplaced := (makeTarget_spec fs (by simp [ht])).ok rfl hrun
    refine h.placed ht hmark hdue hne habove ?_ hplaced
    have hsame := h.get?_rest (hmark.append hdue.plain) (by simp [ht])
      fun q hq he => hnew (List.append_cancel_left he ▸ hq)
    rw [inTurn_append ht hdue, hdir, hsame]
    rfl

/-- A file is written, unless there is no place for it. -/
theorem ends_copyFile (h : Laid fs₁ src t S fs) (hdue : Due fs₁ src t r) (hne : r ≠ [])
    (hnew : r ∉ S) (habove : ∀ q, q <+: r → q ≠ r → q ∈ S)
    (hdone : ∀ q, r = t ++ q → Due fs₁ src t q → q ∈ S)
    (hfile : inTurn fs₁ src t r = some (.file c)) :
    Ends ((LayerFS.copyFile (src ++ r) (src ++ (t ++ r)) : VfsM Stack Unit).run fs)
      (fun _ fs' => (¬ Shut fs₁ (src ++ (t ++ r)) ∧
        fs₁.upper.get? (src ++ (t ++ r)) ≠ some .dir) ∧ Laid fs₁ src t (insert r S) fs')
      (fun _ => Shut fs₁ (src ++ (t ++ r)) ∨ fs₁.upper.get? (src ++ (t ++ r)) = some .dir) := by
  have hshut := h.shut_iff ht hmark hne hnew habove hdue.above
  have hview := (h.view_eq ht hmark hdue.plain hne hdone).trans hfile
  have hsame := h.get?_rest (hmark.append hdue.plain) (by simp [ht])
    fun q hq he => hnew (List.append_cancel_left he ▸ hq)
  -- whether there is a place for it has not changed since the start
  have hreturns : Returns (LayerFS.copyFile (src ++ r) (src ++ (t ++ r)) : VfsM Stack Unit) fs ↔
      ¬ Shut fs₁ (src ++ (t ++ r)) ∧ fs₁.upper.get? (src ++ (t ++ r)) ≠ some .dir := by
    rw [returns_copyFile_iff, hshut, hsame, and_iff_right ⟨c, hview⟩, and_comm]
  cases hrun : (LayerFS.copyFile (src ++ r) (src ++ (t ++ r)) : VfsM Stack Unit).run fs with
  | error e fs' =>
    by_contra hfree
    obtain ⟨a, fs'', hok⟩ := hreturns.mpr (not_or.mp hfree)
    rw [hrun] at hok
    cases hok
  | ok a fs' =>
    refine ⟨hreturns.mp ⟨a, fs', hrun⟩, ?_⟩
    obtain ⟨b, hb, hplaced⟩ := (copyFile_spec fs (src ++ r) (src ++ (t ++ r))).ok rfl hrun
    rw [hview] at hb
    cases hb
    refine h.placed ht hmark hdue hne habove ?_ hplaced
    rw [inTurn_append ht hdue, hfile]
    rfl

end Laid

/-! ### Copies beside the way -/

/-- It is the turn of `r`: what is above is copied, and nothing below, nor what is to be copied
to there is missing. -/
structure Next (fs₁ : Stack) (src t : Path) (S : Set Path) (r : Path) : Prop where
  above : ∀ q, q <+: r → q ≠ r → q ∈ S
  fresh : ∀ x ∈ S, ¬ r <+: x
  done : ∀ q, r <+: t ++ q → Due fs₁ src t q → q ∈ S

namespace Next

theorem not_mem (h : Next fs₁ src t S r) : r ∉ S := fun hr => h.fresh r hr (List.prefix_refl r)

/-- Then it is that of its entries. -/
theorem child (h : Next fs₁ src t S r) (n : Name) : Next fs₁ src t (insert r S) (r ++ [n]) where
  above := by
    intro q hq hne
    by_cases hqr : q = r
    · exact Or.inl hqr
    · exact Or.inr (h.above q ((List.prefix_concat_iff.mp hq).resolve_left hne) hqr)
  fresh := by
    rintro x (rfl | hx) hpre
    · have := hpre.length_le
      simp at this
    · exact h.fresh x hx ((List.prefix_append r [n]).trans hpre)
  done := fun q hq hdue => Or.inr (h.done q ((List.prefix_append r [n]).trans hq) hdue)

/-- Entries do not interfere. -/
theorem sibling {T : Set Path} (h : Next fs₁ src t S (r ++ [n])) (hmn : m ≠ n) :
    Next fs₁ src t (S ∪ Below T (r ++ [m])) (r ++ [n]) where
  above := fun q hq hne => Or.inl (h.above q hq hne)
  fresh := by
    rintro x (hx | ⟨-, hx⟩) hpre
    · exact h.fresh x hx hpre
    · have hboth := List.prefix_of_prefix_length_le hx hpre (by simp)
      rw [List.prefix_append_right_inj] at hboth
      exact hmn (by simpa using hboth)
  done := fun q hq hdue => Or.inl (h.done q hq hdue)

end Next

/-- How a copy of the paths in `A` ends: it makes them all, and meets no obstacle; or it fails at
one, or for want of stack. -/
def Outcome (fs₁ : Stack) (src t : Path) (S A : Set Path) :
    EStateM.Result VfsError Stack Unit → Prop
  | .ok _ fs' => Laid fs₁ src t (S ∪ A) fs' ∧ ∀ r ∈ A, ¬ Obstacle fs₁ src t r
  | .error e _ => e = .stackOverflow ∨ ∃ r ∈ A, Obstacle fs₁ src t r

namespace Outcome

theorem skip (h : Laid fs₁ src t S fs) : Outcome fs₁ src t S ∅ (.ok () fs) := by
  refine ⟨by rwa [Set.union_empty], ?_⟩
  rintro r ⟨⟩

/-- One copy after another. -/
theorem seq {x y : VfsM Stack Unit} (hx : Outcome fs₁ src t S A (x.run fs))
    (hy : ∀ fs', Laid fs₁ src t (S ∪ A) fs' → Outcome fs₁ src t (S ∪ A) B (y.run fs')) :
    Outcome fs₁ src t S (A ∪ B) ((x >>= fun _ => y).run fs) := by
  cases hrun : x.run fs with
  | error e fs' =>
    rw [run_bind_of_error hrun]
    rw [hrun] at hx
    rcases hx with hover | ⟨r, hr, hobstacle⟩
    · exact Or.inl hover
    · exact Or.inr ⟨r, Or.inl hr, hobstacle⟩
  | ok a fs' =>
    rw [run_bind_of_ok hrun]
    rw [hrun] at hx
    have hrest := hy fs' hx.1
    cases hrun' : y.run fs' with
    | error e fs'' =>
      rw [hrun'] at hrest
      rcases hrest with hover | ⟨r, hr, hobstacle⟩
      · exact Or.inl hover
      · exact Or.inr ⟨r, Or.inr hr, hobstacle⟩
    | ok b fs'' =>
      rw [hrun'] at hrest
      refine ⟨by rw [← Set.union_assoc]; exact hrest.1, ?_⟩
      rintro r (hr | hr)
      · exact hx.2 r hr
      · exact hrest.2 r hr

/-- The directory itself was copied first. -/
theorem of_insert {res : EStateM.Result VfsError Stack Unit} (hr : ¬ Obstacle fs₁ src t r)
    (h : Outcome fs₁ src t (insert r S) A res) : Outcome fs₁ src t S (insert r A) res := by
  cases res with
  | error e fs' =>
    rcases h with hover | ⟨q, hq, hobstacle⟩
    · exact Or.inl hover
    · exact Or.inr ⟨q, Or.inr hq, hobstacle⟩
  | ok a fs' =>
    refine ⟨by rw [Set.union_insert, ← Set.insert_union]; exact h.1, ?_⟩
    rintro q (rfl | hq)
    · exact hr
    · exact h.2 q hq

end Outcome

section

variable (ht : t ≠ []) (hmark : NoMarker t)
include ht hmark

/-- One file. -/
theorem outcome_copyFile (h : Laid fs₁ src t S fs) (hnext : Next fs₁ src t S r)
    (hdue : Due fs₁ src t r) (hne : r ≠ []) (hfile : inTurn fs₁ src t r = some (.file c)) :
    Outcome fs₁ src t S {r}
      ((LayerFS.copyFile (src ++ r) (src ++ (t ++ r)) : VfsM Stack Unit).run fs) := by
  have hends := h.ends_copyFile ht hmark hdue hne hnext.not_mem hnext.above
    (fun q he => hnext.done q (he ▸ List.prefix_refl _)) hfile
  cases hrun : (LayerFS.copyFile (src ++ r) (src ++ (t ++ r)) : VfsM Stack Unit).run fs with
  | error e fs' =>
    rw [hrun] at hends
    refine Or.inr ⟨r, rfl, ?_⟩
    rcases hends with hshut | hdir
    · exact Or.inl hshut
    · exact Or.inr (Or.inr ⟨⟨c, hfile⟩, hdir⟩)
  | ok a fs' =>
    rw [hrun] at hends
    obtain ⟨⟨hfree, hdir⟩, hlaid⟩ := hends
    refine ⟨by rwa [Set.union_singleton], ?_⟩
    rintro q rfl
    rintro (hshut | ⟨hdir', -⟩ | ⟨-, hentry⟩)
    · exact hfree hshut
    · rw [hfile] at hdir'
      cases hdir'
    · exact hdir hentry

/-- One entry, given what the recursive call does. -/
theorem outcome_copyEntry {descend : Path → Path → VfsM Stack Unit} (h : Laid fs₁ src t S fs)
    (hnext : Next fs₁ src t S (r ++ [n])) (hplain : NoMarker (r ++ [n]))
    (hmet : ∃ k, MetAt t k (r ++ [n])) (hdirs : ∀ q, q <+: r → inTurn fs₁ src t q = some .dir)
    (hdescend : Due fs₁ src t (r ++ [n]) → inTurn fs₁ src t (r ++ [n]) = some .dir →
      Outcome fs₁ src t S (Below {x | Due fs₁ src t x} (r ++ [n]))
        ((descend (src ++ (r ++ [n])) (src ++ (t ++ (r ++ [n])))).run fs)) :
    Outcome fs₁ src t S (Below {x | Due fs₁ src t x} (r ++ [n]))
      ((copyEntry descend (src ++ r) (src ++ (t ++ r)) n).run fs) := by
  have habove : ∀ q, q <+: r ++ [n] → q ≠ r ++ [n] → inTurn fs₁ src t q = some .dir :=
    fun q hq hne => hdirs q ((List.prefix_concat_iff.mp hq).resolve_left hne)
  have hview := h.view_eq ht hmark hplain (by simp)
    fun q he => hnext.done q (he ▸ List.prefix_refl _)
  have hassoc : src ++ (t ++ r) ++ [n] = src ++ (t ++ (r ++ [n])) := by simp
  rw [run_copyEntry, hassoc, List.append_assoc, hview]
  cases hnode : inTurn fs₁ src t (r ++ [n]) with
  | none =>
    -- nothing is due below what is not shown
    have hempty : Below {x | Due fs₁ src t x} (r ++ [n]) = ∅ := by
      rw [Set.eq_empty_iff_forall_notMem]
      rintro x ⟨hx, hpre⟩
      by_cases he : r ++ [n] = x
      · exact hx.shown (he ▸ hnode)
      · have hdir := hx.above _ hpre he
        rw [hnode] at hdir
        cases hdir
    rw [hempty]
    exact Outcome.skip h
  | some node =>
    have hdue : Due fs₁ src t (r ++ [n]) := ⟨hmet, hplain, habove, by simp [hnode]⟩
    cases node with
    | dir => exact hdescend hdue hnode
    | file c =>
      have hsingle : Below {x | Due fs₁ src t x} (r ++ [n]) = {r ++ [n]} := by
        ext x
        rw [Set.mem_singleton_iff]
        constructor
        · rintro ⟨hx, hpre⟩
          by_contra hne
          have hdir := hx.above _ hpre (Ne.symm hne)
          rw [hnode] at hdir
          cases hdir
        · rintro rfl
          exact ⟨hdue, List.prefix_refl _⟩
      rw [hsingle]
      exact outcome_copyFile ht hmark h hnext hdue (by simp) hnode

/-- The loop over entries, given what the recursive calls do. -/
theorem outcome_copyEntries {descend : Path → Path → VfsM Stack Unit} {l : List Name}
    (h : Laid fs₁ src t S fs) (hnodup : l.Nodup) (hnext : ∀ n ∈ l, Next fs₁ src t S (r ++ [n]))
    (hplain : ∀ n ∈ l, NoMarker (r ++ [n])) (hmet : ∀ n ∈ l, ∃ k, MetAt t k (r ++ [n]))
    (hdirs : ∀ q, q <+: r → inTurn fs₁ src t q = some .dir)
    (hdescend : ∀ n ∈ l, ∀ S fs, Laid fs₁ src t S fs → Next fs₁ src t S (r ++ [n]) →
      Due fs₁ src t (r ++ [n]) → inTurn fs₁ src t (r ++ [n]) = some .dir →
      Outcome fs₁ src t S (Below {x | Due fs₁ src t x} (r ++ [n]))
        ((descend (src ++ (r ++ [n])) (src ++ (t ++ (r ++ [n])))).run fs)) :
    Outcome fs₁ src t S (BelowAny {x | Due fs₁ src t x} r l)
      ((l.forM (copyEntry descend (src ++ r) (src ++ (t ++ r)))).run fs) := by
  induction l generalizing S fs with
  | nil =>
    have hempty : BelowAny {x | Due fs₁ src t x} r [] = ∅ := by
      simp [BelowAny]
    rw [hempty]
    exact Outcome.skip h
  | cons n l ih =>
    obtain ⟨hn, hnodup⟩ := List.nodup_cons.mp hnodup
    rw [belowAny_cons]
    have hfirst := hnext n List.mem_cons_self
    refine (outcome_copyEntry ht hmark h hfirst (hplain n List.mem_cons_self)
      (hmet n List.mem_cons_self) hdirs (hdescend n List.mem_cons_self S fs h hfirst)).seq
      fun fs' h' => ?_
    apply ih h' hnodup
    · intro m hm
      apply (hnext m (List.mem_cons_of_mem n hm)).sibling
      rintro rfl
      exact hn hm
    · exact fun m hm => hplain m (List.mem_cons_of_mem n hm)
    · exact fun m hm => hmet m (List.mem_cons_of_mem n hm)
    · exact fun m hm => hdescend m (List.mem_cons_of_mem n hm)

/-- What is due below a directory is below an entry that it lists. -/
theorem below_eq_insert {l : List Name} (h : Laid fs₁ src t (insert r S) fs)
    (hdone : ∀ n q, r ++ [n] = t ++ q → Due fs₁ src t q → q ∈ insert r S)
    (hdue : Due fs₁ src t r) (hl : LayerFS.readDir (src ++ r) fs = .ok l) :
    Below {x | Due fs₁ src t x} r = insert r (BelowAny {x | Due fs₁ src t x} r l) := by
  ext x
  rw [Set.mem_insert_iff]
  constructor
  · rintro ⟨hx, hpre⟩
    obtain ⟨rest, rfl⟩ := hpre
    cases rest with
    | nil => exact Or.inl (List.append_nil r)
    | cons n rest =>
      right
      have hchild : r ++ [n] <+: r ++ n :: rest :=
        (List.prefix_append_right_inj r).mpr (List.prefix_append [n] rest)
      have hn : NoMarker (r ++ [n]) := hx.plain.of_isPrefix hchild
      -- the entry above something due is a directory when its turn comes
      have hsome : inTurn fs₁ src t (r ++ [n]) ≠ none := by
        by_cases he : r ++ [n] = r ++ n :: rest
        · rw [he]
          exact hx.shown
        · simp [hx.above _ hchild he]
      refine ⟨hx, n, ?_, hchild⟩
      apply mem_readDir_of_isSome_view (hn n (by simp)) hl
      rw [List.append_assoc, h.view_eq ht hmark hn (by simp) (hdone n)]
      exact Option.isSome_iff_ne_none.mpr hsome
  · rintro (rfl | ⟨hx, n, -, hpre⟩)
    · exact ⟨hdue, List.prefix_refl _⟩
    · exact ⟨hx, (List.prefix_append r [n]).trans hpre⟩

/-- Beside the way, a copy ends as it should: it returns, or there is an obstacle to it. -/
theorem outcome_copyDirRecursive (hdest : (fs₁.upper.get? (src ++ t)).isSome) (frames : Nat)
    (h : Laid fs₁ src t S fs) (hnext : Next fs₁ src t S r) (hdue : Due fs₁ src t r)
    (hbeside : ∃ w, BesideWay t w r) (hne : r ≠ []) (hdir : inTurn fs₁ src t r = some .dir) :
    Outcome fs₁ src t S (Below {x | Due fs₁ src t x} r)
      ((copyDirRecursive frames (src ++ r) (src ++ (t ++ r)) : VfsM Stack Unit).run fs) := by
  induction frames generalizing r S fs with
  | zero => exact Or.inl rfl
  | succ frames ih =>
    have hself : r ∈ Below {x | Due fs₁ src t x} r := ⟨hdue, List.prefix_refl r⟩
    -- the target is made, unless there is no place for it
    have hmake := h.ends_makeTarget ht hmark hdue hne hnext.not_mem hnext.above hdir
    rw [copyDirRecursive_succ]
    cases hrun : (makeTarget (src ++ (t ++ r))).run fs with
    | error e fs' =>
      rw [hrun] at hmake
      rw [run_bind_of_error hrun]
      exact Or.inr ⟨r, hself, Or.inl hmake⟩
    | ok a fs' =>
      rw [hrun] at hmake
      obtain ⟨hfree, hlaid⟩ := hmake
      rw [run_bind_of_ok hrun]
      have hlist := hlaid.fileInTheWay_iff ht hmark hdest hdue.plain hdir
        fun q he hq => Or.inr (hnext.done q (he ▸ List.prefix_refl _) hq)
      -- the directory is listed as it was at the start, or not at all
      by_cases hfile : FileInTheWay fs' (src ++ r)
      · have hread : (ask fun fs : Stack => LayerFS.readDir (src ++ r) fs).run fs' =
            .error .ioError fs' := by
          rw [run_ask, hfile.readDir]
        rw [run_bind_of_error hread]
        exact Or.inr ⟨r, hself, Or.inr (Or.inl ⟨hdir, hlist.mp hfile⟩)⟩
      · obtain ⟨l, hl⟩ := exists_readDir hfile
        have hobstacle : ¬ Obstacle fs₁ src t r := by
          rintro (hshut | ⟨-, hway⟩ | ⟨⟨c, hc⟩, -⟩)
          · exact hfree hshut
          · exact hfile (hlist.mpr hway)
          · rw [hdir] at hc
            cases hc
        -- what is below `r` is `r` and what is below the names listed
        rw [run_bind_of_ok (run_ask_eq_ok.mpr ⟨hl, rfl⟩), below_eq_insert ht hmark hlaid
          (fun n q he => (hnext.child n).done q (he ▸ List.prefix_refl _)) hdue hl]
        apply Outcome.of_insert hobstacle
        obtain ⟨w, hw⟩ := hbeside
        have hbeside : ∀ n, BesideWay t w (r ++ [n]) := fun n => hw.append [n]
        refine outcome_copyEntries ht hmark hlaid ((pairwise_readDir hl).imp ne_of_lt)
          (fun n _ => hnext.child n) (fun n hn => ?_)
          (fun n _ => ⟨w.length, Or.inr ⟨w, rfl, hbeside n⟩⟩) (fun q hq => ?_)
          fun n _ S fs h hnext hdue => ih h hnext hdue ⟨w, hbeside n⟩ (by simp)
        · exact hdue.plain.concat (not_isMarker_of_mem_readDir hl hn)
        · by_cases hqr : q = r
          · rw [hqr, hdir]
          · exact hdue.above q hq hqr

end

end Rspacefs
