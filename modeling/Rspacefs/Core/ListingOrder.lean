import Mathlib.Data.List.Forall2
import Rspacefs.Core.Kinds

/-!
# A listing and the order of enumeration

A backend enumerates a directory in an order of its own, and a listing is sorted
at its end. The order can still matter: going through one lower layer, `read_dir`
skips a name whose whiteout it has met already, and enters it if the whiteout
comes later. That takes a layer with both, and nothing above it that settles the
name.

## Main definitions

* `SameEntries` — the layers hold the same entries, in whatever order
* `Contested` — the topmost layer naming a path is a lower one with the entry and its
  whiteout

## Main results

* `Contested.reordered` — a contested name is listed in one order and not in another
* `readDir_order_iff` — a listing is the same in every order exactly if no name is contested
-/

namespace Rspacefs

open Lib LayerFS

variable {fs fs' : Stack} {t t' : Tree} {d : Path} {n m : Name} {l : List Name}
  {lower lower' pre post : List Tree}

/-- Layer by layer the same entries; each layer may enumerate them in an order of its own. -/
structure SameEntries (fs fs' : Stack) : Prop where
  upper : fs.upper.get? = fs'.upper.get?
  lower : List.Forall₂ (fun t t' : Tree => t.get? = t'.get?) fs.lower fs'.lower

/-- The topmost of these layers that names `n` has both the entry and its whiteout. -/
def ContestedBelow (d : Path) (n : Name) (lower : List Tree) : Prop :=
  ∃ pre t post, lower = pre ++ t :: post ∧ (∀ s ∈ pre, ¬ s.Names (d ++ [n])) ∧
    (t.get? (d ++ [n])).isSome ∧ t.hides (d ++ [n]) = true

/-- A listing of `d` takes `n` from the topmost layer that names it, and that is a lower layer
with both the entry and its whiteout. -/
structure Contested (fs : Stack) (d : Path) (n : Name) : Prop where
  not_marker : ¬ IsMarker n
  listed : fs.upper.get? (opaquePath d) = none
  not_upper : ¬ fs.upper.Names (d ++ [n])
  below : ContestedBelow d n fs.lower

namespace Tree

theorem hides_of_get? (h : t.get? = t'.get?) {p : Path} : t.hides p = t'.hides p := by
  rw [hides, hides, h]

theorem shownIn_of_none (h : t.get? (d ++ [n]) = none) : shownIn (t.children d) n = false := by
  rw [Bool.eq_false_iff]
  intro hshown
  have hentry := PathMap.mem_children.mp (mem_of_shownIn hshown)
  simp [h] at hentry

/-- Any entry of a directory can come first. -/
theorem exists_first (h : (t.get? (d ++ [m])).isSome) :
    ∃ t' : Tree, t'.get? = t.get? ∧ ∃ rest, t'.children d = m :: rest := by
  obtain ⟨node, hnode⟩ := Option.isSome_iff_exists.mp h
  have hparent := get?_parent (by simp) hnode
  have hkeep : node = .dir ∨ ∀ c, t.get? (d ++ [m]) = some c → c ≠ .dir := by
    by_cases hdir : node = .dir
    · exact Or.inl hdir
    · refine Or.inr fun c hc => ?_
      rw [hnode, Option.some.injEq] at hc
      exact hc ▸ hdir
  -- an entry that is stored again comes to the front
  refine ⟨t.put (d ++ [m]) node (by simp) ⟨.dir, hparent, rfl⟩ hkeep, ?_, ?_⟩
  · funext q
    rw [PathMap.get?_put]
    split
    · rename_i hq
      rw [hq, hnode]
    · rfl
  · have hkeys : ∃ keys, (t.map.insert (d ++ [m]) node).keys = (d ++ [m]) :: keys :=
      ⟨_, AList.keys_insert _⟩
    obtain ⟨keys, hkeys⟩ := hkeys
    rw [PathMap.children, PathMap.put, hkeys, List.filterMap_cons]
    simp

end Tree

/-! ### Where the order does not matter -/

/-- Without a contested name, what lower layers list depends on their entries alone. -/
theorem lowerLists_congr (h : List.Forall₂ (fun t t' : Tree => t.get? = t'.get?) lower lower')
    (hquiet : ¬ ContestedBelow d n lower) : lowerLists d n lower = lowerLists d n lower' := by
  induction h with
  | nil => rfl
  | @cons t t' rest rest' hget _ ih =>
    rw [lowerLists, lowerLists, ← Tree.hides_of_get? hget]
    cases hentry : t.get? (d ++ [n]) with
    | some node =>
      -- the entry settles the name, as there is no whiteout beside it
      have hclear : t.hides (d ++ [n]) = false := by
        rw [Bool.eq_false_iff]
        intro hmark
        exact hquiet ⟨[], t, rest, rfl, by simp, by simp [hentry], hmark⟩
      rw [Tree.shownIn_children_of_get? (by simp [hentry]) hclear,
        Tree.shownIn_children_of_get? (by simp [← hget, hentry]) (Tree.hides_of_get? hget ▸ hclear)]
      rfl
    | none =>
      rw [Tree.shownIn_of_none hentry, Tree.shownIn_of_none (hget ▸ hentry)]
      cases hmark : t.hides (d ++ [n]) with
      | true => rfl
      | false =>
        rw [ih]
        rintro ⟨pre, u, post, rfl, hpre, hu⟩
        refine hquiet ⟨t :: pre, u, post, rfl, ?_, hu⟩
        intro s hs
        rcases List.mem_cons.mp hs with rfl | hs
        · exact Tree.not_names_iff.mpr ⟨hentry, hmark⟩
        · exact hpre s hs

theorem FileInTheWay.sameEntries (hsame : SameEntries fs fs') (h : FileInTheWay fs d) :
    FileInTheWay fs' d := by
  obtain ⟨upper, lower⟩ := fs
  obtain ⟨upper', lower'⟩ := fs'
  obtain ⟨hupper, hlower⟩ := hsame
  simp only at hupper hlower
  rcases h with hfile | ⟨hopq, t, ht, c, hc⟩
  · exact Or.inl (hupper ▸ hfile)
  · refine Or.inr ⟨hupper ▸ hopq, ?_⟩
    induction hlower with
    | nil => cases ht
    | @cons u u' rest rest' hget _ ih =>
      rcases List.mem_cons.mp ht with rfl | ht
      · exact ⟨u', List.mem_cons_self, c, hget ▸ hc⟩
      · obtain ⟨s, hs, hfile⟩ := ih hopq ht
        exact ⟨s, List.mem_cons_of_mem u' hs, hfile⟩

/-- Strictly sorted lists with the same names are equal. -/
theorem eq_of_mem_iff {l l' : List Name} (hl : l.Pairwise (· < ·)) (hl' : l'.Pairwise (· < ·))
    (h : ∀ n, n ∈ l ↔ n ∈ l') : l = l' := by
  have hnodup : ∀ {k : List Name}, k.Pairwise (· < ·) → k.Nodup := by
    intro k hk
    apply hk.imp
    rintro a _ hlt rfl
    exact List.lt_irrefl a hlt
  have hperm : l.Perm l' := (List.perm_ext_iff_of_nodup (hnodup hl) (hnodup hl')).mpr h
  exact hperm.eq_of_pairwise (fun _ _ _ _ hlt hgt => absurd hlt (List.lt_asymm hgt)) hl hl'

theorem SameEntries.symm (h : SameEntries fs fs') : SameEntries fs' fs where
  upper := h.upper.symm
  lower := (h.lower.imp fun _ _ hget => hget.symm).flip

/-- Without a contested name both listings have the same names. -/
theorem SameEntries.readDir (h : SameEntries fs fs') (hquiet : ∀ n, ¬ Contested fs d n) :
    LayerFS.readDir d fs' = LayerFS.readDir d fs := by
  by_cases hfile : FileInTheWay fs d
  · rw [hfile.readDir, (hfile.sameEntries h).readDir]
  · obtain ⟨l, hl⟩ := exists_readDir hfile
    obtain ⟨l', hl'⟩ := exists_readDir fun hfile' => hfile (hfile'.sameEntries h.symm)
    have hmem : ∀ n, n ∈ l' ↔ n ∈ l := by
      intro n
      by_cases hn : IsMarker n
      · -- no listing has a marker
        exact ⟨fun hm => absurd hn (not_isMarker_of_mem_readDir hl' hm),
          fun hm => absurd hn (not_isMarker_of_mem_readDir hl hm)⟩
      rw [mem_readDir hn hl', mem_readDir hn hl, ← h.upper, ← Tree.hides_of_get? h.upper]
      apply or_congr_right'
      intro hentry
      rw [and_congr_right_iff]
      intro hopq
      rw [and_congr_right_iff]
      intro hclear
      have hnames : ¬ fs.upper.Names (d ++ [n]) :=
        Tree.not_names_iff.mpr ⟨by simpa using hentry, hclear⟩
      rw [lowerLists_congr h.lower fun hbelow => hquiet n ⟨hn, hopq, hnames, hbelow⟩]
    rw [hl, hl', eq_of_mem_iff (pairwise_readDir hl') (pairwise_readDir hl) hmem]

/-! ### Where it does -/

/-- A layer with the entry and its whiteout settles the name, by which of the two it enumerates
first. -/
theorem lowerLists_of_topmost (hpre : ∀ s ∈ pre, ¬ s.Names (d ++ [n]))
    (hmark : t.hides (d ++ [n]) = true) :
    lowerLists d n (pre ++ t :: post) = shownIn (t.children d) n := by
  induction pre with
  | nil => simp [lowerLists, hmark]
  | cons s pre ih =>
    obtain ⟨hentry, hclear⟩ := Tree.not_names_iff.mp (hpre s (by simp))
    rw [List.cons_append, lowerLists, Tree.shownIn_of_none hentry, hclear,
      ih fun s hs => hpre s (by simp [hs])]
    rfl

/-- Whatever list a contested name is in or not, some order of enumeration gives another. -/
theorem Contested.reordered (h : Contested fs d n) (l : List Name) :
    ∃ fs', SameEntries fs fs' ∧ LayerFS.readDir d fs' ≠ .ok l := by
  obtain ⟨hn, hopq, hnames, pre, t, post, hsplit, hpre, hentry, hmark⟩ := h
  have hself : n ≠ whiteoutPrefix ++ n := by
    intro he
    exact hn (he ▸ isMarker_whiteoutPrefix_append n)
  -- the layer with its entries in the order that contradicts the listing
  have horder : ∃ t' : Tree, t'.get? = t.get? ∧ (shownIn (t'.children d) n = true ↔ n ∉ l) := by
    by_cases hmem : n ∈ l
    · have hfirst : (t.get? (d ++ [whiteoutPrefix ++ n])).isSome := by
        rwa [Tree.hides, whiteoutPath_concat] at hmark
      obtain ⟨t', hget, rest, hrest⟩ := Tree.exists_first hfirst
      refine ⟨t', hget, ?_⟩
      rw [hrest, shownIn_cons]
      simp [hmem]
    · obtain ⟨t', hget, rest, hrest⟩ := Tree.exists_first hentry
      refine ⟨t', hget, ?_⟩
      rw [hrest, shownIn_cons]
      simp [hmem, hself]
  obtain ⟨t', hget, hshown⟩ := horder
  refine ⟨⟨fs.upper, pre ++ t' :: post⟩, ⟨rfl, ?_⟩, ?_⟩
  · rw [hsplit]
    apply List.rel_append
    · exact List.forall₂_same.mpr fun _ _ => rfl
    · exact .cons hget.symm (List.forall₂_same.mpr fun _ _ => rfl)
  · intro hl'
    have hmem := mem_readDir hn hl'
    rw [lowerLists_of_topmost hpre (Tree.hides_of_get? hget ▸ hmark), hshown] at hmem
    obtain ⟨hmissing, hclear⟩ := Tree.not_names_iff.mp hnames
    simp [hmissing, hopq, hclear] at hmem

/-- A listing is the same in every order of enumeration, strictly sorted, exactly if it fails at
a file in the way of the directory or no name in it is contested. -/
theorem readDir_order_iff (fs : Stack) (d : Path) :
    (∀ fs', SameEntries fs fs' → LayerFS.readDir d fs' = LayerFS.readDir d fs ∧
      ∀ l, LayerFS.readDir d fs' = .ok l → l.Pairwise (· < ·)) ↔
      FileInTheWay fs d ∨ ∀ n, ¬ Contested fs d n := by
  constructor
  · intro hsame
    by_contra hnot
    push Not at hnot
    obtain ⟨hfile, n, hcontested⟩ := hnot
    obtain ⟨l, hl⟩ := exists_readDir hfile
    obtain ⟨fs', hentries, hne⟩ := hcontested.reordered l
    exact hne ((hsame fs' hentries).1.trans hl)
  · intro h fs' hentries
    refine ⟨?_, fun l hl => pairwise_readDir hl⟩
    rcases h with hfile | hquiet
    · rw [hfile.readDir, (hfile.sameEntries hentries).readDir]
    · exact hentries.readDir hquiet

/-- One layer with a file and its whiteout. -/
def contestedStack : Stack :=
  ⟨Tree.empty, [Tree.ofEntries [(["d".toList], .dir), (["d".toList, "x".toList], .file []),
    (["d".toList, ".wh.x".toList], .file [])]]⟩

theorem contested_contestedStack : Contested contestedStack ["d".toList] "x".toList where
  not_marker := by decide
  listed := by decide
  not_upper := Tree.not_names_iff.mpr (by decide)
  below := ⟨[], _, [], rfl, by simp, by decide, by decide⟩

theorem not_readDir_order_contested :
    ¬ ∀ (fs fs' : Stack) (d : Path), view fs d = some .dir → SameEntries fs fs' →
      LayerFS.readDir d fs' = LayerFS.readDir d fs := by
  intro h
  have hl : LayerFS.readDir ["d".toList] contestedStack = .ok [] := rfl
  obtain ⟨fs', hentries, hne⟩ := contested_contestedStack.reordered []
  exact hne ((h contestedStack fs' ["d".toList] (by decide) hentries).trans hl)

end Rspacefs
