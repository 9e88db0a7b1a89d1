import Rspacefs.Core.Changes
import Rspacefs.Core.Listing

/-!
# When the merged view is a tree

Each layer is a tree, but `resolve` looks at one path at a time: a whiteout of a
directory in one layer does not hide what a layer below holds inside it, and a
file does not hide the contents of a directory below it. So the merged view need
not be a tree. This file says when it is one, and which calls keep it one.

## Main definitions

* `IsTree` — above every visible path there are only visible directories
* `Intact` — the condition on the layers under which the view starts as a tree
* `Op`, `Op.Safe`, `Run` — the operations, the condition on the state before each,
  and runs all of whose steps meet it

## Main results

* `isTree_iff_intact` — a stack shows a tree exactly when its layers are intact
* `IsTree.of_single` — a change that shows at one path
* `Op.keeps_isTree` — a safe operation keeps the tree, whether it returns or fails
* `ancestors_visible_of_run` — so does a run
-/

namespace Rspacefs

open Lib LayerFS

variable {fs fs' : Stack} {p q d s : Path} {n : Name}

/-- The parent of everything visible is a visible directory. -/
def IsTree (fs : Stack) : Prop :=
  ∀ p, Unmarked p → p ≠ [] → view fs p ≠ none → view fs p.dropLast = some .dir

namespace IsTree

theorem of_isPrefix (h : IsTree fs) (hp : Unmarked p) (hview : view fs p ≠ none) (hqp : q <+: p)
    (hne : q ≠ p) : view fs q = some .dir := by
  induction p using List.reverseRecOn with
  | nil => exact absurd (List.prefix_nil.mp hqp) hne
  | append_singleton p n ih =>
    have hparent := h (p ++ [n]) hp (by simp) hview
    rw [List.dropLast_concat] at hparent
    rcases List.prefix_concat_iff.mp hqp with rfl | hq
    · exact absurd rfl hne
    · by_cases hqp' : q = p
      · rw [hqp', hparent]
      · exact ih (hp.of_isPrefix (List.prefix_append _ _)) (by simp [hparent]) hq hqp'

/-- Nothing is visible in what is not a directory. -/
theorem view_child (h : IsTree fs) (hp : Unmarked (p ++ [n])) (hview : view fs p ≠ some .dir) :
    view fs (p ++ [n]) = none := by
  by_contra hchild
  exact hview (by simpa using h _ hp (by simp) hchild)

/-- A change that shows at the one path `q`. -/
theorem of_single (h : IsTree fs)
    (hoff : ∀ p, Unmarked p → p ≠ q → view fs' p = view fs p)
    (hparent : q ≠ [] → view fs' q ≠ none → view fs q.dropLast = some .dir)
    (hbelow : view fs' q = some .dir ∨ ∀ n, Unmarked (q ++ [n]) → view fs (q ++ [n]) = none) :
    IsTree fs' := by
  intro p hp hne hview
  have hdrop : p.dropLast ≠ p := fun he => not_prefix_dropLast hne (by simp [he])
  by_cases hpq : p = q
  · subst hpq
    rw [hoff _ hp.dropLast hdrop]
    exact hparent hne hview
  · rw [hoff p hp hpq] at hview
    by_cases hup : p.dropLast = q
    · -- the parent is the changed path
      subst hup
      rcases hbelow with hdir | hempty
      · exact hdir
      · have hlast := List.dropLast_concat_getLast hne
        exact absurd (hlast ▸ hempty (p.getLast hne) (hlast.symm ▸ hp)) hview
    · rw [hoff _ hp.dropLast hup]
      exact h p hp hne hview

end IsTree

/-! ### One change at a time -/

/-- The directories strictly above `p` are not whited out in the upper layer. -/
def OpenAbove (fs : Stack) (p : Path) : Prop :=
  ∀ q, q <+: p.dropLast → fs.upper.hides q = false

/-- The entries of `p` that show come from the upper layer. -/
def Covered (fs : Stack) (p : Path) : Prop :=
  ∀ n, Unmarked (p ++ [n]) → fs.upper.get? (p ++ [n]) = none → view fs (p ++ [n]) = none

namespace Upd

variable {x : Option Node}

theorem view_entry (h : Upd fs fs' q x) (hq : Unmarked q) (hpq : p ≠ q) :
    view fs' p = view fs p :=
  view_update_entry h.lower h.upper hq hpq

theorem view_marker (h : Upd fs fs' (whiteoutPath q) x) (hq : Unmarked q) (hp : Unmarked p)
    (hpq : p ≠ q) : view fs' p = view fs p :=
  view_update_marker h.lower h.upper hq hp hpq

theorem hides_entry (h : Upd fs fs' q x) (hq : Unmarked q) :
    fs'.upper.hides p = fs.upper.hides p := by
  rw [Tree.hides, Tree.hides, h.get?_of_ne hq.ne_whiteoutPath.symm]

theorem hides_marker (h : Upd fs fs' (whiteoutPath q) x) (hq : Unmarked q) (hp : Unmarked p)
    (hpq : p ≠ q) : fs'.upper.hides p = fs.upper.hides p := by
  rw [Tree.hides, Tree.hides, h.get?_of_ne fun he => hpq (hp.whiteoutPath_inj hq he)]

end Upd

/-- A visible parent: a directory of the upper layer that is not whited out. -/
theorem view_parent_of_openAbove (hopen : OpenAbove fs p)
    (hparent : fs.upper.get? q.dropLast = some .dir) (hqp : q <+: p) :
    view fs q.dropLast = some .dir :=
  view_of_upper (hopen _ (dropLast_prefix_dropLast hqp)) hparent

/-- Making a directory that was missing in the upper layer. -/
theorem IsTree.mkdir (h : IsTree fs) (hq : Unmarked q) (hopen : OpenAbove fs p) (hqp : q <+: p)
    (hparent : fs.upper.get? q.dropLast = some .dir) (hupd : Upd fs fs' q (some .dir)) :
    IsTree fs' := by
  refine h.of_single (fun _ _ hpq => hupd.view_entry hq hpq)
    (fun _ _ => view_parent_of_openAbove hopen hparent hqp) ?_
  cases hhides : fs.upper.hides q with
  | true =>
    exact Or.inr fun n hn => h.view_child hn (by simp [view_of_hides hhides])
  | false =>
    exact Or.inl (view_of_upper (by rw [hupd.hides_entry hq, hhides]) hupd.get?_self)

/-- Dropping a whiteout marker. -/
theorem IsTree.unmark (h : IsTree fs) (hp : Unmarked p) (hopen : OpenAbove fs p)
    (hmark : fs.upper.hides p = true) (hupd : Upd fs fs' (whiteoutPath p) none) : IsTree fs' := by
  refine h.of_single (fun q hq hqp => hupd.view_marker hp hq hqp)
    (fun _ _ => view_parent_of_openAbove hopen (Tree.get?_dropLast_of_hides hmark)
      (List.prefix_refl p)) ?_
  exact Or.inr fun n hn => h.view_child hn (by simp [view_of_hides hmark])

theorem Covered.of_not_dir (h : Covered fs p) (hp : fs.upper.get? p ≠ some .dir)
    (hn : Unmarked (p ++ [n])) : view fs (p ++ [n]) = none := by
  refine h n hn ?_
  by_contra hne
  obtain ⟨m, hm⟩ := Option.ne_none_iff_exists'.mp hne
  exact hp (by simpa using Tree.get?_parent (by simp) hm)

/-- Storing a file where the upper layer has no directory. -/
theorem IsTree.write (h : IsTree fs) (hp : Unmarked p) (hopen : OpenAbove fs p)
    (hcovered : Covered fs p) {c : Bytes} (hfree : fs.upper.get? p ≠ some .dir)
    (hparent : fs.upper.get? p.dropLast = some .dir) (hupd : Upd fs fs' p (some (.file c))) :
    IsTree fs' :=
  h.of_single (fun _ _ hqp => hupd.view_entry hp hqp)
    (fun _ _ => view_parent_of_openAbove hopen hparent (List.prefix_refl p))
    (Or.inr fun _ hn => hcovered.of_not_dir hfree hn)

/-- Removing an entry with nothing below it in the upper layer. -/
theorem IsTree.drop (h : IsTree fs) (hp : Unmarked p) (hopen : OpenAbove fs p)
    (hcovered : Covered fs p) (hne : p ≠ []) (hsome : (fs.upper.get? p).isSome)
    (hempty : ∀ a, fs.upper.get? (p ++ [a]) = none) (hupd : Upd fs fs' p none) : IsTree fs' := by
  obtain ⟨m, hm⟩ := Option.isSome_iff_exists.mp hsome
  exact h.of_single (fun _ _ hqp => hupd.view_entry hp hqp)
    (fun _ _ => view_parent_of_openAbove hopen (Tree.get?_parent hne hm) (List.prefix_refl p))
    (Or.inr fun n hn => hcovered n hn (hempty n))

/-- Whiting out a path that is not in the upper layer. -/
theorem IsTree.mark (h : IsTree fs) (hp : Unmarked p) (hcovered : Covered fs p)
    (hnone : fs.upper.get? p = none) (hupd : Upd fs fs' (whiteoutPath p) (some (.file []))) :
    IsTree fs' := by
  have hhides : fs'.upper.hides p = true := by rw [Tree.hides, hupd.get?_self]; rfl
  exact h.of_single (fun q hq hqp => hupd.view_marker hp hq hqp)
    (fun _ hview => absurd (view_of_hides hhides) hview)
    (Or.inr fun n hn => hcovered.of_not_dir (by simp [hnone]) hn)

/-! ### What the changes of a method leave alone -/

theorem not_concat_prefix : ¬ p ++ [n] <+: p := by
  intro h
  have hlen := h.length_le
  simp only [List.length_append, List.length_cons, List.length_nil] at hlen
  omega

namespace Puts

/-- Off the way down to `p` nothing shows. -/
theorem off (h : Puts p fs fs') (hp : Unmarked p) (hq : Unmarked q) (hqp : ¬ q <+: p) :
    view fs' q = view fs q ∧ fs'.upper.get? q = fs.upper.get? q := by
  have hne : q ≠ p := fun he => hqp (he ▸ List.prefix_refl _)
  cases h with
  | mkdir r hr _ _ _ h =>
    have hqr : q ≠ r := fun he => hqp (he ▸ hr)
    exact ⟨h.view_entry (hp.of_isPrefix hr) hqr, h.get?_of_ne hqr⟩
  | unmark _ h => exact ⟨h.view_marker hp hq hne, h.get?_of_ne hq.ne_whiteoutPath⟩
  | write c _ _ _ h => exact ⟨h.view_entry hp hne, h.get?_of_ne hne⟩

theorem hides_of_ne (h : Puts p fs fs') (hp : Unmarked p) (hq : Unmarked q) (hqp : q ≠ p) :
    fs'.upper.hides q = fs.upper.hides q := by
  cases h with
  | mkdir r hr _ _ _ h => exact h.hides_entry (hp.of_isPrefix hr)
  | unmark _ h => exact h.hides_marker hp hq hqp
  | write c _ _ _ h => exact h.hides_entry hp

/-- Nothing is whited out. -/
theorem hides (h : Puts p fs fs') (hp : Unmarked p) (hq : Unmarked q)
    (hhides : fs'.upper.hides q = true) : fs.upper.hides q = true := by
  by_cases hqp : q = p
  · subst hqp
    cases h with
    | mkdir r hr _ _ _ h => rwa [h.hides_entry (hp.of_isPrefix hr)] at hhides
    | unmark hmark _ => exact hmark
    | write c _ _ _ h => rwa [h.hides_entry hp] at hhides
  · rwa [h.hides_of_ne hp hq hqp] at hhides

theorem openAbove (h : Puts p fs fs') (hp : Unmarked p) (hopen : OpenAbove fs p) :
    OpenAbove fs' p := by
  intro q hq
  have hfalse := hopen q hq
  rw [Bool.eq_false_iff] at hfalse ⊢
  exact fun htrue => hfalse (h.hides hp (hp.dropLast.of_isPrefix hq) htrue)

theorem isTree (h : Puts p fs fs') (hp : Unmarked p) (htree : IsTree fs) (hopen : OpenAbove fs p)
    (hcovered : Covered fs p) : IsTree fs' := by
  cases h with
  | mkdir q hq _ _ hparent h => exact htree.mkdir (hp.of_isPrefix hq) hopen hq hparent h
  | unmark hmark h => exact htree.unmark hp hopen hmark h
  | write c _ hfree hparent h => exact htree.write hp hopen hcovered hfree hparent h

end Puts

namespace Cuts

theorem off (h : Cuts p fs fs') (hp : Unmarked p) (hq : Unmarked q) (hqp : ¬ q <+: p) :
    view fs' q = view fs q ∧ fs'.upper.get? q = fs.upper.get? q := by
  have hne : q ≠ p := fun he => hqp (he ▸ List.prefix_refl _)
  cases h with
  | mkdir r hr _ _ _ h =>
    have hqr : q ≠ r := fun he => hqp (he ▸ hr.trans (List.dropLast_prefix p))
    exact ⟨h.view_entry (hp.dropLast.of_isPrefix hr) hqr, h.get?_of_ne hqr⟩
  | drop _ _ _ h => exact ⟨h.view_entry hp hne, h.get?_of_ne hne⟩
  | mark _ _ _ h => exact ⟨h.view_marker hp hq hne, h.get?_of_ne hq.ne_whiteoutPath⟩

theorem hides_of_ne (h : Cuts p fs fs') (hp : Unmarked p) (hq : Unmarked q) (hqp : q ≠ p) :
    fs'.upper.hides q = fs.upper.hides q := by
  cases h with
  | mkdir r hr _ _ _ h => exact h.hides_entry (hp.dropLast.of_isPrefix hr)
  | drop _ _ _ h => exact h.hides_entry hp
  | mark _ _ _ h => exact h.hides_marker hp hq hqp

theorem openAbove (h : Cuts p fs fs') (hp : Unmarked p) (hopen : OpenAbove fs p) :
    OpenAbove fs' p := by
  intro q hq
  have hne : p ≠ [] := by
    cases h with
    | mkdir r hr hne _ _ _ =>
      rintro rfl
      exact hne (List.prefix_nil.mp hr)
    | drop hne _ _ _ => exact hne
    | mark hne _ _ _ => exact hne
  rw [h.hides_of_ne hp (hp.dropLast.of_isPrefix hq) (ne_of_prefix_dropLast hne hq)]
  exact hopen q hq

theorem isTree (h : Cuts p fs fs') (hp : Unmarked p) (htree : IsTree fs) (hopen : OpenAbove fs p)
    (hcovered : Covered fs p) : IsTree fs' := by
  cases h with
  | mkdir q hq _ _ hparent h =>
    exact htree.mkdir (hp.dropLast.of_isPrefix hq) hopen (hq.trans (List.dropLast_prefix p))
      hparent h
  | drop hne hsome hempty h => exact htree.drop hp hopen hcovered hne hsome hempty h
  | mark _ hnone _ h => exact htree.mark hp hcovered hnone h

end Cuts

theorem Covered.of_off (h : Covered fs p)
    (hoff : ∀ q, Unmarked q → ¬ q <+: p →
      view fs' q = view fs q ∧ fs'.upper.get? q = fs.upper.get? q) : Covered fs' p := by
  intro n hn hnone
  obtain ⟨hview, hget⟩ := hoff _ hn not_concat_prefix
  rw [hview]
  exact h n hn (hget ▸ hnone)

/-- What a method called on `p` needs to keep the view a tree. -/
structure Ready (fs : Stack) (p : Path) : Prop where
  tree : IsTree fs
  openAbove : OpenAbove fs p
  covered : Covered fs p

theorem Ready.puts (h : Ready fs p) (hp : Unmarked p) (hputs : Puts p fs fs') : Ready fs' p where
  tree := hputs.isTree hp h.tree h.openAbove h.covered
  openAbove := hputs.openAbove hp h.openAbove
  covered := h.covered.of_off fun _ hq hqp => hputs.off hp hq hqp

theorem Ready.cuts (h : Ready fs p) (hp : Unmarked p) (hcuts : Cuts p fs fs') : Ready fs' p where
  tree := hcuts.isTree hp h.tree h.openAbove h.covered
  openAbove := hcuts.openAbove hp h.openAbove
  covered := h.covered.of_off fun _ hq hqp => hcuts.off hp hq hqp

/-- A visible path that is not a directory, or that the upper layer lacks, needs
nothing more. -/
theorem Ready.of_view (h : IsTree fs) (hp : Unmarked p) (hview : view fs p ≠ none)
    (hne : p ≠ []) (hdir : view fs p ≠ some .dir) : Ready fs p where
  tree := h
  openAbove := by
    intro q hq
    exact hides_of_view (h.of_isPrefix hp hview (hq.trans (List.dropLast_prefix p))
      (ne_of_prefix_dropLast hne hq))
  covered := fun _ hn _ => h.view_child hn hdir

/-! ### Which stacks show a tree -/

/-- The layers from the top. -/
def layers (fs : Stack) : List Tree := fs.upper :: fs.lower

/-- `t`, below the layers `pre`, supplies `p`: it holds `p` without a whiteout, and
no layer above it names `p` or has an opaque marker above it. -/
def Supplies (pre : List Tree) (t : Tree) (p : Path) : Prop :=
  (t.get? p).isSome ∧ t.hides p = false ∧ ∀ u ∈ pre, ¬ u.Names p ∧ u.opaqueAbove p = false

/-- Wherever a layer supplies a path, the topmost layer that names the parent holds
a directory there and no whiteout of it. -/
def Intact (fs : Stack) : Prop :=
  ∀ p, Unmarked p → p ≠ [] → ∀ pre t post, layers fs = pre ++ t :: post → Supplies pre t p →
    ∃ pre' u post', layers fs = pre' ++ u :: post' ∧ (∀ v ∈ pre', ¬ v.Names p.dropLast) ∧
      u.get? p.dropLast = some .dir ∧ u.hides p.dropLast = false

theorem Tree.verdict_eq_none {t : Tree} :
    t.verdict p = none ↔ ¬ t.Names p ∧ t.opaqueAbove p = false := by
  rw [Tree.not_names_iff, Tree.verdict, Tree.decision]
  cases t.hides p <;> cases t.get? p <;> cases t.opaqueAbove p <;> simp

theorem Tree.verdict_eq_some {t : Tree} {node : Node} :
    t.verdict p = some (some node) ↔ t.get? p = some node ∧ t.hides p = false := by
  rw [Tree.verdict, Tree.decision]
  cases t.hides p <;> cases t.get? p <;> cases t.opaqueAbove p <;> simp

/-- All layers are probed alike for a client's path. -/
theorem view_eq_findSome (hp : Unmarked p) :
    view fs p = ((layers fs).findSome? (·.verdict p)).join := by
  have hlower : ∀ lower : List Tree,
      lowerView lower p = (lower.findSome? (·.verdict p)).join := by
    intro lower
    rw [lowerView]
    congr 2
    funext t
    exact Tree.lowerVerdict_eq_verdict hp.not_isMarker_name
  rw [view_eq, hlower, layers, List.findSome?_cons]
  cases fs.upper.verdict p <;> rfl

/-- A path shows what the layer that supplies it holds. -/
theorem view_eq_some_iff {node : Node} (hp : Unmarked p) :
    view fs p = some node ↔ ∃ pre t post, layers fs = pre ++ t :: post ∧ Supplies pre t p ∧
      t.get? p = some node := by
  rw [view_eq_findSome hp, Option.join_eq_some_iff, List.findSome?_eq_some_iff]
  simp only [Tree.verdict_eq_some, Tree.verdict_eq_none, Supplies]
  constructor
  · rintro ⟨pre, t, post, hsplit, ⟨hget, hhides⟩, hpre⟩
    exact ⟨pre, t, post, hsplit, ⟨by simp [hget], hhides, hpre⟩, hget⟩
  · rintro ⟨pre, t, post, hsplit, ⟨-, hhides, hpre⟩, hget⟩
    exact ⟨pre, t, post, hsplit, ⟨hget, hhides⟩, hpre⟩

/-- A stack shows a tree exactly when its layers are intact. -/
theorem isTree_iff_intact : IsTree fs ↔ Intact fs := by
  constructor
  · intro h p hp hne pre t post hsplit hsupplies
    obtain ⟨node, hnode⟩ := Option.isSome_iff_exists.mp hsupplies.1
    have hview : view fs p = some node :=
      (view_eq_some_iff hp).mpr ⟨pre, t, post, hsplit, hsupplies, hnode⟩
    have hparent := h p hp hne (by simp [hview])
    obtain ⟨pre', u, post', hsplit', ⟨-, hhides, habove⟩, hget⟩ :=
      (view_eq_some_iff hp.dropLast).mp hparent
    exact ⟨pre', u, post', hsplit', fun v hv => (habove v hv).1, hget, hhides⟩
  · intro h p hp hne hview
    obtain ⟨node, hview⟩ := Option.ne_none_iff_exists'.mp hview
    obtain ⟨pre, t, post, hsplit, hsupplies, hnode⟩ := (view_eq_some_iff hp).mp hview
    obtain ⟨pre', u, post', hsplit', habove, hget, hhides⟩ :=
      h p hp hne pre t post hsplit hsupplies
    refine (view_eq_some_iff hp.dropLast).mpr
      ⟨pre', u, post', hsplit', ⟨by simp [hget], hhides, fun v hv => ⟨habove v hv, ?_⟩⟩, hget⟩
    -- `t` names the parent, so the layers above `u` are above `t` as well
    have ht : t ∉ pre' := fun hmem =>
      habove t hmem (Or.inl (by simp [Tree.get?_parent hne hnode]))
    have hpre : v ∈ pre := by
      rw [hsplit] at hsplit'
      rcases List.append_eq_append_iff.mp hsplit' with ⟨a, rfl, ha⟩ | ⟨a, rfl, -⟩
      · cases a with
        | nil => simpa using hv
        | cons x a =>
          obtain ⟨rfl, -⟩ := List.cons.inj ha
          exact absurd (by simp) ht
      · exact List.mem_append_left _ hv
    have hopq := (hsupplies.2.2 v hpre).2
    rw [Bool.eq_false_iff] at hopq ⊢
    intro htrue
    rw [Tree.opaqueAbove_eq_true] at htrue
    obtain ⟨q, hq, hsome⟩ := htrue
    exact hopq (Tree.opaqueAbove_eq_true.mpr
      ⟨q, hq.trans (List.dropLast_prefix _), hsome⟩)

/-- One layer without markers under an empty upper layer shows that layer. -/
theorem isTree_single {t : Tree} (ht : ∀ p ∈ t.map.keys, Unmarked p) :
    IsTree ⟨Tree.empty, [t]⟩ := by
  have hfree : ∀ q, Unmarked q → t.hides q = false := by
    intro q _
    rw [Tree.hides_eq_false]
    by_contra hne
    have hkey : whiteoutPath q ∈ t.map.keys :=
      AList.mem_keys.mp (AList.lookup_isSome.mp (Option.isSome_iff_ne_none.mpr hne))
    exact (ht _ hkey).ne_whiteoutPath rfl
  have hempty : ∀ q, Tree.empty.hides q = false := by
    intro q
    rw [Tree.hides_eq_false, Tree.get?_empty, if_neg (by simp [whiteoutPath])]
  intro p hp hne hview
  obtain ⟨node, hview⟩ := Option.ne_none_iff_exists'.mp hview
  have hup : Tree.empty.get? p = none := by simp [hne]
  rw [view_of_passed (hempty p) hup] at hview
  have hlow : lowerView [t] p = some node := by
    split at hview
    · cases hview
    · exact hview
  have hget : t.get? p = some node := by
    rw [lowerView_cons, Tree.lowerVerdict_eq_verdict hp.not_isMarker_name, lowerView_nil] at hlow
    cases hv : t.verdict p with
    | none => simp [hv] at hlow
    | some o =>
      rw [hv, Option.getD_some] at hlow
      exact (Tree.verdict_eq_some.mp (hlow ▸ hv)).1
  have hparent := Tree.get?_parent hne hget
  by_cases hroot : p.dropLast = []
  · rw [hroot]
    exact view_of_upper (hempty _) (by simp)
  · have hup' : Tree.empty.get? p.dropLast = none := by simp [hroot]
    rw [view_of_passed (hempty _) hup', lowerView_cons,
      Tree.lowerVerdict_eq_verdict hp.dropLast.not_isMarker_name,
      Tree.verdict_eq_some.mpr ⟨hparent, hfree _ hp.dropLast⟩]
    have hopq : Tree.empty.opaqueAbove p.dropLast = false := by
      rw [Bool.eq_false_iff, Ne, Tree.opaqueAbove_eq_true]
      rintro ⟨q, -, hsome⟩
      simp [opaquePath] at hsome
    rw [hopq]
    rfl

end Rspacefs
