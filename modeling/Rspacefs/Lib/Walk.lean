import Mathlib.Algebra.Order.BigOperators.Group.List
import Mathlib.Algebra.Order.Group.Nat
import Mathlib.Data.List.Nodup
import Rspacefs.Lib.PathMap

/-!
# Walking a tree of paths

A recursive walk over a `PathMap`: each entry of a node, and then what is below it. Each node
lists its entries in some order, and the walk goes down a bounded number of levels.

The walk finds every entry within its bound once, and no entry after something below it.

## Main definitions

* `PathMap.walk` — the entries below a node, in the order of the walk
* `PathMap.Lists` — orders in which the nodes list their entries

## Main results

* `PathMap.mem_walk` — what is found
* `PathMap.pairwise_walk` — in which order
-/

namespace Rspacefs.Lib

namespace PathMap

variable {α β : Type*} [DecidableEq α] {inner : β → Prop} {t : PathMap α β inner}
  {names : List α → List α} {n : Nat} {d p : List α} {b : β}

/-- The entries below `d`, down to `n` levels. -/
def walk (t : PathMap α β inner) (names : List α → List α) : Nat → List α → List (List α × β)
  | 0, _ => []
  | n + 1, d => (names d).flatMap fun a =>
    (t.get? (d ++ [a])).toList.flatMap fun b => (d ++ [a], b) :: walk t names n (d ++ [a])

/-- Each node lists its entries, once. -/
structure Lists (t : PathMap α β inner) (names : List α → List α) : Prop where
  mem : ∀ d a, a ∈ names d ↔ (t.get? (d ++ [a])).isSome
  nodup : ∀ d, (names d).Nodup

/-- What the walk meets under one name. -/
theorem mem_walk_succ :
    (p, b) ∈ walk t names (n + 1) d ↔ ∃ a ∈ names d, ∃ c, t.get? (d ++ [a]) = some c ∧
      ((p, b) = (d ++ [a], c) ∨ (p, b) ∈ walk t names n (d ++ [a])) := by
  simp only [walk, List.mem_flatMap, Option.mem_toList, List.mem_cons]

/-- The walk finds what is stored below `d`, down to its bound. -/
theorem mem_walk (hnames : Lists t names) :
    (p, b) ∈ walk t names n d ↔
      d <+: p ∧ d ≠ p ∧ p.length ≤ d.length + n ∧ t.get? p = some b := by
  induction n generalizing d with
  | zero =>
    refine iff_of_false List.not_mem_nil ?_
    rintro ⟨hbelow, hne, hlen, -⟩
    exact hne (hbelow.eq_of_length_le hlen)
  | succ n ih =>
    rw [mem_walk_succ]
    constructor
    · rintro ⟨a, -, c, hc, hhere | hbelow⟩
      · obtain ⟨rfl, rfl⟩ := Prod.mk.inj hhere
        refine ⟨List.prefix_append _ _, by simp, ?_, hc⟩
        rw [List.length_append, List.length_singleton]
        omega
      · obtain ⟨hpre, -, hlen, hget⟩ := ih.mp hbelow
        rw [List.length_append, List.length_singleton] at hlen
        refine ⟨(List.prefix_append _ _).trans hpre, ?_, by omega, hget⟩
        rintro rfl
        have := hpre.length_le
        rw [List.length_append, List.length_singleton] at this
        omega
    · rintro ⟨⟨rest, rfl⟩, hne, hlen, hget⟩
      cases rest with
      | nil => exact absurd (List.append_nil d).symm hne
      | cons a rest =>
        have hpre : d ++ [a] <+: d ++ a :: rest := ⟨rest, by simp⟩
        have hsome := isSome_of_isPrefix hpre (by rw [hget]; rfl)
        obtain ⟨c, hc⟩ := Option.isSome_iff_exists.mp hsome
        refine ⟨a, (hnames.mem d a).mpr hsome, c, hc, ?_⟩
        -- the entry is the child itself, or the walk finds it below the child
        by_cases heq : d ++ [a] = d ++ a :: rest
        · left
          rw [← heq] at hget ⊢
          rw [Option.some.inj (hc.symm.trans hget)]
        · right
          refine ih.mpr ⟨hpre, heq, ?_, hget⟩
          simp only [List.length_append, List.length_cons, List.length_nil] at hlen ⊢
          omega

/-- Nothing is below a leaf. -/
theorem walk_of_leaf (hnames : Lists t names) (hget : t.get? d = some b) (hleaf : ¬ inner b) :
    walk t names n d = [] := by
  rw [List.eq_nil_iff_forall_not_mem]
  intro e hmem
  obtain ⟨hbelow, hne, -, hstored⟩ := (mem_walk hnames).mp hmem
  obtain ⟨c, hc, hinner⟩ := exists_inner_of_isPrefix hbelow hne hstored
  apply hleaf
  rw [Option.some.inj (hget.symm.trans hc)]
  exact hinner

/-- No entry stands behind something below it, so none stands there twice. -/
theorem pairwise_walk (hnames : Lists t names) :
    (walk t names n d).Pairwise fun x y => ¬ y.1 <+: x.1 := by
  induction n generalizing d with
  | zero => exact List.Pairwise.nil
  | succ n ih =>
    rw [walk, List.pairwise_flatMap]
    constructor
    · intro a _
      cases hget : t.get? (d ++ [a]) with
      | none => exact List.Pairwise.nil
      | some c =>
        rw [Option.toList_some, List.flatMap_singleton]
        refine List.pairwise_cons.mpr ⟨?_, ih⟩
        rintro ⟨p, b⟩ hbelow hprefix
        obtain ⟨hbelow, hne, -⟩ := (mem_walk hnames).mp hbelow
        exact hne (hbelow.eq_of_length_le hprefix.length_le)
    · -- what is under one name is not a prefix of what is under another
      have hunder : ∀ a p b, (p, b) ∈ ((t.get? (d ++ [a])).toList.flatMap fun c =>
          (d ++ [a], c) :: walk t names n (d ++ [a])) → d ++ [a] <+: p := by
        intro a p b hmem
        obtain ⟨c, -, hmem⟩ := List.mem_flatMap.mp hmem
        rcases List.mem_cons.mp hmem with heq | hbelow
        · rw [(Prod.mk.inj heq).1]
        · exact ((mem_walk hnames).mp hbelow).1
      refine (hnames.nodup d).imp ?_
      rintro a a' hne ⟨p, b⟩ hp ⟨p', b'⟩ hp' hprefix
      have heq : d ++ [a] = d ++ [a'] :=
        (List.prefix_of_prefix_length_le (hunder a p b hp) ((hunder a' p' b' hp').trans hprefix)
          (by simp)).eq_of_length (by simp)
      exact hne (by simpa using heq)

theorem nodup_walk (hnames : Lists t names) : ((walk t names n d).map (·.1)).Nodup := by
  rw [List.Nodup, List.pairwise_map]
  apply (pairwise_walk hnames).imp
  intro x y hprefix heq
  exact hprefix (heq ▸ List.prefix_refl _)

/-- A bound for the depth of a tree. -/
theorem exists_depth (t : PathMap α β inner) : ∃ n, ∀ p, (t.get? p).isSome → p.length ≤ n := by
  refine ⟨(t.map.keys.map List.length).sum, fun p hp => ?_⟩
  rw [get?, AList.lookup_isSome, AList.mem_keys] at hp
  exact List.single_le_sum (by simp) _ (List.mem_map_of_mem hp)

end PathMap

end Rspacefs.Lib
