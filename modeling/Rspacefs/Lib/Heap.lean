import Mathlib.Algebra.Ring.Nat
import Mathlib.Data.List.Basic

/-!
# Binary trees in an array

A complete binary tree stored level by level: the children of node `i` are the
nodes `2 * i + 1` and `2 * i + 2`, its parent is `(i - 1) / 2`, and an interior
node is a function of its two children. `fill` computes the interior nodes from
the last to the first. `climb` goes the other way: it replaces the value of one
node and recomputes the root from it and the stored siblings.

## Main definitions

* `Heap.fill` — the bottom-up computation of the interior nodes
* `Heap.climb`, `Heap.climbPairs` — the walk to the root, and the pairs it combines
* `Heap.siblings` — the indices of the siblings on the walk
* `Heap.foldBits` — the walk without the tree, by the binary digits of a leaf
* `Heap.IsHeap` — every interior node is the function of its children

## Main results

* `Heap.isHeap_fill` — `fill` makes a heap
* `Heap.climb_eq_root_iff` — the walk ends in the stored root exactly when it
  started with the stored value, if the function is injective on the pairs compared
* `Heap.climb_eq_root` — a walk over other siblings that ends in the root of a heap
  went through nodes of the heap, unless a pair on it gives a leaf
* `Heap.nodes_eq` — the root determines the nodes
* `Heap.climb_leaf`, `Heap.length_siblings_leaf` — the walk from a leaf goes by its digits
-/

namespace Rspacefs.Lib.Heap

variable {α : Type*} {f : α → α → α} {z : α} {node : Nat → α} {k i idx : Nat} {current : α}

/-- Compute the nodes below index `k`, the last one first. -/
def fill (f : α → α → α) (z : α) : Nat → List α → List α
  | 0, nodes => nodes
  | i + 1, nodes =>
    fill f z i (nodes.set i (f (nodes.getD (2 * i + 1) z) (nodes.getD (2 * i + 2) z)))

/-- The first `k` nodes are the function of their children. -/
def IsHeap (f : α → α → α) (node : Nat → α) (k : Nat) : Prop :=
  ∀ i, i < k → node i = f (node (2 * i + 1)) (node (2 * i + 2))

@[simp] theorem length_fill (k : Nat) (nodes : List α) :
    (fill f z k nodes).length = nodes.length := by
  induction k generalizing nodes with
  | zero => rfl
  | succ k ih => rw [fill, ih, List.length_set]

/-- Nodes from `k` on stay as they were. -/
theorem getD_fill_of_le (nodes : List α) (hi : k ≤ i) :
    (fill f z k nodes).getD i z = nodes.getD i z := by
  induction k generalizing nodes with
  | zero => rfl
  | succ k ih =>
    rw [fill, ih _ (by omega)]
    simp only [List.getD_eq_getElem?_getD]
    rw [List.getElem?_set_ne (by omega)]

/-- The bottom-up computation makes a heap. -/
theorem isHeap_fill (nodes : List α) (hk : k ≤ nodes.length) :
    IsHeap f (fun i => (fill f z k nodes).getD i z) k := by
  induction k generalizing nodes with
  | zero => exact fun i hi => absurd hi (Nat.not_lt_zero i)
  | succ k ih =>
    intro i hi
    rw [fill]
    by_cases hik : i < k
    · exact ih _ (by rw [List.length_set]; omega) i hik
    · -- the node set first; its children come later in the array and are not set again
      obtain rfl : i = k := by omega
      have hself : (nodes.set i (f (nodes.getD (2 * i + 1) z) (nodes.getD (2 * i + 2) z))).getD i z
          = f (nodes.getD (2 * i + 1) z) (nodes.getD (2 * i + 2) z) := by
        rw [List.getD_eq_getElem?_getD, List.getElem?_set_self (by omega), Option.getD_some]
      have hchild : ∀ j, i < j →
          (nodes.set i (f (nodes.getD (2 * i + 1) z) (nodes.getD (2 * i + 2) z))).getD j z
            = nodes.getD j z := by
        intro j hj
        simp only [List.getD_eq_getElem?_getD]
        rw [List.getElem?_set_ne (by omega)]
      change (fill f z i _).getD i z = f ((fill f z i _).getD _ z) ((fill f z i _).getD _ z)
      rw [getD_fill_of_le _ (Nat.le_refl i), getD_fill_of_le _ (by omega),
        getD_fill_of_le _ (by omega), hself, hchild _ (by omega), hchild _ (by omega)]

/-- The pair combined at `idx`: a left child has an odd index. -/
def pairAt (node : Nat → α) (idx : Nat) (current : α) : α × α :=
  if idx % 2 = 1 then (current, node (idx + 1)) else (node (idx - 1), current)

/-- Walk from `idx` to the root, combining with the sibling at each level. -/
def climb (f : α → α → α) (node : Nat → α) (idx : Nat) (current : α) : α :=
  if idx = 0 then current
  else
    climb f node ((idx - 1) / 2) (f (pairAt node idx current).1 (pairAt node idx current).2)
termination_by idx
decreasing_by omega

/-- The pairs combined on the walk. -/
def climbPairs (f : α → α → α) (node : Nat → α) (idx : Nat) (current : α) : List (α × α) :=
  if idx = 0 then []
  else pairAt node idx current ::
    climbPairs f node ((idx - 1) / 2) (f (pairAt node idx current).1 (pairAt node idx current).2)
termination_by idx
decreasing_by omega

theorem climb_zero : climb f node 0 current = current := by
  rw [climb, if_pos rfl]

theorem climb_pos (h : idx ≠ 0) : climb f node idx current =
    climb f node ((idx - 1) / 2) (f (pairAt node idx current).1 (pairAt node idx current).2) := by
  rw [climb, if_neg h]

theorem climbPairs_zero : climbPairs f node 0 current = [] := by
  rw [climbPairs, if_pos rfl]

theorem climbPairs_pos (h : idx ≠ 0) : climbPairs f node idx current =
    pairAt node idx current ::
      climbPairs f node ((idx - 1) / 2)
        (f (pairAt node idx current).1 (pairAt node idx current).2) := by
  rw [climbPairs, if_neg h]

/-- The pair at a child is the parent's pair of children exactly when the value is
the child's. -/
theorem pairAt_eq_iff (h : idx ≠ 0) :
    pairAt node idx current = (node (2 * ((idx - 1) / 2) + 1), node (2 * ((idx - 1) / 2) + 2)) ↔
      current = node idx := by
  unfold pairAt
  split
  · rw [show 2 * ((idx - 1) / 2) + 1 = idx by omega, show 2 * ((idx - 1) / 2) + 2 = idx + 1 by omega]
    simp
  · rw [show 2 * ((idx - 1) / 2) + 1 = idx - 1 by omega, show 2 * ((idx - 1) / 2) + 2 = idx by omega]
    simp

/-- The walk ends in the stored root exactly when it started with the stored
value, provided the function tells every pair combined on the walk from every pair
of children in the tree. -/
theorem climb_eq_root_iff (hheap : IsHeap f node k) (hidx : idx < 2 * k + 1)
    (hinj : ∀ x ∈ climbPairs f node idx current, ∀ j, j < k →
      f x.1 x.2 = f (node (2 * j + 1)) (node (2 * j + 2)) →
      x = (node (2 * j + 1), node (2 * j + 2))) :
    climb f node idx current = node 0 ↔ current = node idx := by
  -- along the walk, from a node to its parent
  induction idx using Nat.strongRecOn generalizing current with
  | _ idx ih =>
    by_cases h : idx = 0
    · subst h
      rw [climb_zero]
    · have hparent : (idx - 1) / 2 < k := by omega
      rw [climbPairs_pos h] at hinj
      rw [climb_pos h, ih ((idx - 1) / 2) (by omega) (by omega)
        fun x hx => hinj x (List.mem_cons_of_mem _ hx), hheap _ hparent, ← pairAt_eq_iff h]
      constructor
      · exact hinj _ List.mem_cons_self _ hparent
      · intro he
        rw [he]

/-! ### Walks over other siblings -/

variable {node' : Nat → α}

/-- The index of the sibling: a left child has an odd index. -/
def siblingOf (idx : Nat) : Nat := if idx % 2 = 1 then idx + 1 else idx - 1

/-- The indices of the siblings on the walk from `idx` to the root. -/
def siblings (idx : Nat) : List Nat :=
  if idx = 0 then [] else siblingOf idx :: siblings ((idx - 1) / 2)
termination_by idx
decreasing_by omega

theorem siblings_zero : siblings 0 = [] := by
  rw [siblings, if_pos rfl]

theorem siblings_pos (h : idx ≠ 0) : siblings idx = siblingOf idx :: siblings ((idx - 1) / 2) := by
  rw [siblings, if_neg h]

/-- The siblings of nodes of a tree with `k` interior nodes are nodes of that tree. -/
theorem siblings_lt {m : Nat} (hidx : idx < 2 * k + 1) (hm : m ∈ siblings idx) :
    m < 2 * k + 1 := by
  induction idx using Nat.strongRecOn with
  | _ idx ih =>
    by_cases h : idx = 0
    · subst h
      rw [siblings_zero] at hm
      cases hm
    · rw [siblings_pos h, List.mem_cons] at hm
      obtain rfl | hm := hm
      · unfold siblingOf
        split <;> omega
      · exact ih _ (by omega) (by omega) hm

/-- The value and its sibling, in the order of the children. -/
def pairWith (idx : Nat) (current sibling : α) : α × α :=
  if idx % 2 = 1 then (current, sibling) else (sibling, current)

theorem pairWith_siblingOf : pairWith idx current (node (siblingOf idx)) = pairAt node idx current := by
  unfold pairWith pairAt siblingOf
  split <;> rfl

theorem pairAt_eq_pairAt_iff :
    pairAt node idx current = pairAt node' idx z ↔
      current = z ∧ node (siblingOf idx) = node' (siblingOf idx) := by
  unfold pairAt siblingOf
  split <;> simp [and_comm]

/-- The pair of a node of the heap is the pair of children of its parent. -/
theorem pairAt_self (h : idx ≠ 0) :
    pairAt node idx (node idx) = (node (2 * ((idx - 1) / 2) + 1), node (2 * ((idx - 1) / 2) + 2)) :=
  (pairAt_eq_iff h).mpr rfl

/-- The walk reads nothing but the siblings. -/
theorem climb_congr (h : ∀ m ∈ siblings idx, node m = node' m) :
    climb f node idx current = climb f node' idx current := by
  induction idx using Nat.strongRecOn generalizing current with
  | _ idx ih =>
    by_cases hidx : idx = 0
    · rw [hidx, climb_zero, climb_zero]
    · rw [siblings_pos hidx] at h
      obtain ⟨hsib, hup⟩ := List.forall_mem_cons.mp h
      have hpair : pairAt node idx current = pairAt node' idx current :=
        pairAt_eq_pairAt_iff.mpr ⟨rfl, hsib⟩
      rw [climb_pos hidx, climb_pos hidx, hpair]
      exact ih _ (by omega) hup

/-- In a heap the walk from a node with its own value ends in the root. -/
theorem climb_node (hheap : IsHeap f node k) (hidx : idx < 2 * k + 1) :
    climb f node idx (node idx) = node 0 := by
  induction idx using Nat.strongRecOn with
  | _ idx ih =>
    by_cases h : idx = 0
    · rw [h, climb_zero]
    · rw [climb_pos h, pairAt_self h, ← hheap _ (by omega)]
      exact ih _ (by omega) (by omega)

/-- A walk over other siblings that ends in the root of a heap: if the function tells
its pairs from every pair of children in the heap, then it started at a node of the heap
with the value and the siblings of the heap, or one of its pairs gives a leaf. -/
theorem climb_eq_root (hheap : IsHeap f node k)
    (hinj : ∀ x ∈ climbPairs f node' idx current, ∀ j, j < k →
      f x.1 x.2 = f (node (2 * j + 1)) (node (2 * j + 2)) →
      x = (node (2 * j + 1), node (2 * j + 2)))
    (hroot : climb f node' idx current = node 0) :
    (idx < 2 * k + 1 ∧ current = node idx ∧ ∀ m ∈ siblings idx, node' m = node m) ∨
      ∃ x ∈ climbPairs f node' idx current, ∃ m, k ≤ m ∧ m < 2 * k + 1 ∧ f x.1 x.2 = node m := by
  induction idx using Nat.strongRecOn generalizing current with
  | _ idx ih =>
    by_cases h : idx = 0
    · subst h
      rw [climb_zero] at hroot
      exact Or.inl ⟨Nat.succ_pos _, hroot, by rw [siblings_zero]; exact fun m hm => nomatch hm⟩
    · rw [climbPairs_pos h] at hinj ⊢
      rw [climb_pos h] at hroot
      obtain ⟨hlt, hval, hsib⟩ | ⟨x, hx, hleaf⟩ := ih ((idx - 1) / 2) (by omega)
        (fun x hx => hinj x (List.mem_cons_of_mem _ hx)) hroot
      · by_cases hk : (idx - 1) / 2 < k
        · -- the parent is an interior node: the pair is its pair of children
          rw [hheap _ hk] at hval
          have hpair := hinj _ List.mem_cons_self _ hk hval
          rw [← pairAt_self h, pairAt_eq_pairAt_iff] at hpair
          refine Or.inl ⟨by omega, hpair.1, ?_⟩
          rw [siblings_pos h]
          exact List.forall_mem_cons.mpr ⟨hpair.2, hsib⟩
        · exact Or.inr ⟨_, List.mem_cons_self, _, Nat.not_lt.mp hk, hlt, hval⟩
      · exact Or.inr ⟨x, List.mem_cons_of_mem _ hx, hleaf⟩

/-- Two heaps with one root have the same nodes, as far as both go: the function tells the
pairs of children at one index of either. -/
theorem nodes_eq {k' : Nat} (hheap : IsHeap f node k) (hheap' : IsHeap f node' k')
    (hinj : ∀ j, j < k → j < k' →
      f (node (2 * j + 1)) (node (2 * j + 2)) = f (node' (2 * j + 1)) (node' (2 * j + 2)) →
      node (2 * j + 1) = node' (2 * j + 1) ∧ node (2 * j + 2) = node' (2 * j + 2))
    (hroot : node 0 = node' 0) (hi : i < 2 * k + 1) (hi' : i < 2 * k' + 1) : node i = node' i := by
  induction i using Nat.strongRecOn with
  | _ i ih =>
    by_cases h : i = 0
    · rw [h, hroot]
    · -- the parent is an interior node of both
      obtain ⟨j, hj⟩ : ∃ j, i = 2 * j + 1 ∨ i = 2 * j + 2 := ⟨(i - 1) / 2, by omega⟩
      have hparent := ih j (by omega) (by omega) (by omega)
      rw [hheap j (by omega), hheap' j (by omega)] at hparent
      obtain ⟨hleft, hright⟩ := hinj j (by omega) (by omega) hparent
      rcases hj with rfl | rfl
      · exact hleft
      · exact hright

/-! ### The walk by binary digits -/

/-- Combine with the hashes of a path one by one, to the left for a one in the binary digits of
`i` and to the right for a zero, from the least significant digit on. -/
def foldBits (f : α → α → α) : Nat → List α → α → α
  | _, [], current => current
  | i, sibling :: path, current =>
    foldBits f (i / 2) path (if i % 2 = 1 then f sibling current else f current sibling)

/-- The parent of a leaf is a leaf of the tree with one level less. -/
theorem parent_leaf (k i : Nat) : (2 ^ (k + 1) - 1 + i - 1) / 2 = 2 ^ k - 1 + i / 2 := by
  have hpos := Nat.two_pow_pos k
  rw [Nat.pow_succ]
  omega

theorem leaf_ne_zero (k i : Nat) : 2 ^ (k + 1) - 1 + i ≠ 0 := by
  have hpos := Nat.two_pow_pos k
  rw [Nat.pow_succ]
  omega

/-- A leaf stands to the left of its sibling if its last digit is a zero. -/
theorem leaf_mod_two (k i : Nat) : (2 ^ (k + 1) - 1 + i) % 2 = 1 ↔ i % 2 ≠ 1 := by
  have hpos := Nat.two_pow_pos k
  rw [Nat.pow_succ]
  omega

theorem length_siblings_leaf (hi : i < 2 ^ k) : (siblings (2 ^ k - 1 + i)).length = k := by
  induction k generalizing i with
  | zero =>
    obtain rfl : i = 0 := by omega
    rw [Nat.pow_zero, siblings_zero, List.length_nil]
  | succ k ih =>
    rw [Nat.pow_succ] at hi
    rw [siblings_pos (leaf_ne_zero k i), parent_leaf, List.length_cons, ih (by omega)]

theorem climb_leaf (hi : i < 2 ^ k) :
    climb f node (2 ^ k - 1 + i) current =
      foldBits f i ((siblings (2 ^ k - 1 + i)).map node) current := by
  induction k generalizing i current with
  | zero =>
    obtain rfl : i = 0 := by omega
    rw [Nat.pow_zero, siblings_zero, climb_zero]
    rfl
  | succ k ih =>
    rw [Nat.pow_succ] at hi
    rw [climb_pos (leaf_ne_zero k i), siblings_pos (leaf_ne_zero k i), parent_leaf,
      List.map_cons, foldBits, ih (by omega), ← pairWith_siblingOf]
    congr 1
    unfold pairWith
    by_cases hleft : (2 ^ (k + 1) - 1 + i) % 2 = 1
    · rw [if_pos hleft, if_neg ((leaf_mod_two k i).mp hleft)]
    · have hdigit : i % 2 = 1 := by
        by_contra hzero
        exact hleft ((leaf_mod_two k i).mpr hzero)
      rw [if_neg hleft, if_pos hdigit]

end Rspacefs.Lib.Heap
