import Mathlib.Data.List.AList
import Mathlib.Data.List.Infix

/-!
# Finite trees as path maps

A rooted tree with labelled edges is stored as a finite map from paths (lists of
edge labels, root first) to node values. Some values may have children and some
may not; the predicate `inner` says which. A `PathMap` carries its own
well-formedness: the root is an inner node, and the parent of every other node
is an inner node.

The order of the stored entries is the order in which `children` lists them.
Nothing else depends on it.

## Main definitions

* `PathMap` — the finite map with its two tree conditions
* `PathMap.get?`, `PathMap.children` — the two observations
* `PathMap.single` — the root alone
* `PathMap.put`, `PathMap.erase` — the two updates, each with the side
  conditions that keep the tree conditions
* `PathMap.tryPut`, `PathMap.tryErase` — the same, refused where these fail

## Main results

* `PathMap.exists_inner_of_isPrefix` — every proper prefix of a stored path is a
  stored inner node
* `PathMap.mem_children` — the listing of a node is exactly the stored paths one
  step below it
* `PathMap.get?_put`, `PathMap.get?_erase` — updates are pointwise
-/

namespace Rspacefs.Lib

variable {α β : Type*} [DecidableEq α] {inner : β → Prop}

/-- A finite tree over edge labels `α` and node values `β`: a finite map from
paths whose root is an inner node and in which parents are inner nodes. -/
structure PathMap (α β : Type*) [DecidableEq α] (inner : β → Prop) where
  /-- The stored nodes, in enumeration order. -/
  map : AList (fun _ : List α => β)
  rooted : ∃ b, map.lookup [] = some b ∧ inner b
  closed : ∀ p, p ≠ [] → (map.lookup p).isSome →
    ∃ b, map.lookup p.dropLast = some b ∧ inner b

namespace PathMap

variable {t : PathMap α β inner} {p q : List α} {a : α} {b c : β}

/-- The value stored at a path. -/
def get? (t : PathMap α β inner) (p : List α) : Option β := t.map.lookup p

/-- The labels one step below `d`, in enumeration order. -/
def children (t : PathMap α β inner) (d : List α) : List α :=
  t.map.keys.filterMap fun p => if p.dropLast = d then p.getLast? else none

theorem exists_inner_root (t : PathMap α β inner) : ∃ b, t.get? [] = some b ∧ inner b :=
  t.rooted

theorem exists_inner_parent (hp : p ≠ []) (h : t.get? p = some b) :
    ∃ c, t.get? p.dropLast = some c ∧ inner c :=
  t.closed p hp (by rw [show t.map.lookup p = some b from h]; rfl)

/-- Every proper prefix of a stored path is a stored inner node. -/
theorem exists_inner_of_isPrefix (hqp : q <+: p) (hne : q ≠ p) (h : t.get? p = some b) :
    ∃ c, t.get? q = some c ∧ inner c := by
  induction p using List.reverseRecOn generalizing b with
  | nil => exact absurd (List.prefix_nil.mp hqp) hne
  | append_singleton p a ih =>
    have hparent := exists_inner_parent (t := t) (by simp) h
    rw [List.dropLast_concat] at hparent
    obtain ⟨c, hc, hinner⟩ := hparent
    rcases List.prefix_concat_iff.mp hqp with rfl | hq
    · exact absurd rfl hne
    · by_cases hpq : q = p
      · exact hpq ▸ ⟨c, hc, hinner⟩
      · exact ih hq hpq hc

/-- Every prefix of a stored path is stored. -/
theorem isSome_of_isPrefix (hqp : q <+: p) (h : (t.get? p).isSome) : (t.get? q).isSome := by
  obtain ⟨b, hb⟩ := Option.isSome_iff_exists.mp h
  by_cases hne : q = p
  · exact hne ▸ h
  · obtain ⟨c, hc, -⟩ := exists_inner_of_isPrefix hqp hne hb
    simp [hc]

/-- Maps that correspond where either has an entry correspond everywhere. -/
theorem get?_eq_map_of_keys {γ : Type*} {inner' : γ → Prop} {u : PathMap α γ inner'} {f : β → γ}
    (h : ∀ p ∈ t.map.keys ++ u.map.keys, u.get? p = (t.get? p).map f) (p : List α) :
    u.get? p = (t.get? p).map f := by
  by_cases hp : p ∈ t.map.keys ++ u.map.keys
  · exact h p hp
  · rw [List.mem_append, not_or] at hp
    have ht : t.get? p = none := AList.lookup_eq_none.mpr hp.1
    have hu : u.get? p = none := AList.lookup_eq_none.mpr hp.2
    rw [ht, hu, Option.map_none]

theorem get?_eq_none_of_isPrefix (hqp : q <+: p) (h : t.get? q = none) : t.get? p = none := by
  by_contra hne
  have hsome := isSome_of_isPrefix (t := t) hqp (Option.isSome_iff_ne_none.mpr hne)
  simp [h] at hsome

/-- The listing of `d` is exactly the stored paths one step below `d`. -/
theorem mem_children {d : List α} : a ∈ t.children d ↔ (t.get? (d ++ [a])).isSome := by
  rw [get?, AList.lookup_isSome, AList.mem_keys, children, List.mem_filterMap]
  constructor
  · rintro ⟨p, hp, ha⟩
    split at ha
    · rename_i hd
      rw [← hd, List.dropLast_append_getLast? a (by simpa using ha)]
      exact hp
    · simp at ha
  · intro h
    exact ⟨d ++ [a], h, by simp⟩

/-- A listing has no name twice. -/
theorem nodup_children (t : PathMap α β inner) (d : List α) : (t.children d).Nodup := by
  apply List.Nodup.filterMap _ t.map.keys_nodup
  intro p q a hp hq
  simp only [Option.mem_def, Option.ite_none_right_eq_some] at hp hq
  rw [← List.dropLast_append_getLast? a hp.2, ← List.dropLast_append_getLast? a hq.2, hp.1, hq.1]

/-- The tree with nothing in it but its root. -/
def single (b : β) (hb : inner b) : PathMap α β inner where
  map := AList.singleton [] b
  rooted := ⟨b, List.dlookup_cons_eq (β := fun _ => β) [] [] b, hb⟩
  closed := by
    intro p hp h
    rw [AList.lookup_isSome, AList.mem_keys, AList.keys_singleton, List.mem_singleton] at h
    exact absurd h hp

@[simp] theorem get?_single (hb : inner b) :
    (single b hb : PathMap α β inner).get? p = if p = [] then some b else none := by
  by_cases h : p = []
  · subst h
    rw [if_pos rfl]
    exact List.dlookup_cons_eq (β := fun _ : List α => β) [] [] b
  · rw [if_neg h, get?, AList.lookup_eq_none, AList.mem_keys]
    simpa [single] using h

/-- Storing `b` at a path whose parent is an inner node keeps the tree, unless it
would replace an inner node by one without children. -/
def put (t : PathMap α β inner) (p : List α) (b : β) (hp : p ≠ [])
    (hparent : ∃ c, t.get? p.dropLast = some c ∧ inner c)
    (hkeep : inner b ∨ ∀ c, t.get? p = some c → ¬ inner c) : PathMap α β inner where
  map := t.map.insert p b
  rooted := by
    obtain ⟨c, hc, hinner⟩ := t.rooted
    exact ⟨c, by rw [AList.lookup_insert_ne hp.symm]; exact hc, hinner⟩
  closed := by
    intro q hq hsome
    by_cases hpq : q.dropLast = p
    · -- `q` is a child of the stored path, which was an inner node already or becomes one
      have hqp : q ≠ p := by
        rintro rfl
        have := congrArg List.length hpq
        have := List.length_pos_of_ne_nil hq
        simp only [List.length_dropLast] at *
        omega
      rw [AList.lookup_insert_ne hqp] at hsome
      obtain ⟨c, hc, hinner⟩ := t.closed q hq hsome
      rcases hkeep with hb | hkeep
      · exact ⟨b, by rw [hpq, AList.lookup_insert], hb⟩
      · exact absurd hinner (hkeep c (hpq ▸ hc))
    · rw [AList.lookup_insert_ne hpq]
      by_cases hqp : q = p
      · exact hqp ▸ hparent
      · rw [AList.lookup_insert_ne hqp] at hsome
        exact t.closed q hq hsome

/-- Removing a path with no children keeps the tree. -/
def erase (t : PathMap α β inner) (p : List α) (hp : p ≠ [])
    (hleaf : ∀ a, t.get? (p ++ [a]) = none) : PathMap α β inner where
  map := t.map.erase p
  rooted := by
    obtain ⟨c, hc, hinner⟩ := t.rooted
    exact ⟨c, by rw [AList.lookup_erase_ne hp.symm]; exact hc, hinner⟩
  closed := by
    intro q hq hsome
    have hqp : q ≠ p := by
      rintro rfl
      simp at hsome
    rw [AList.lookup_erase_ne hqp] at hsome
    obtain ⟨c, hc, hinner⟩ := t.closed q hq hsome
    have hdp : q.dropLast ≠ p := by
      rintro rfl
      have := hleaf (q.getLast hq)
      rw [List.dropLast_concat_getLast, get?] at this
      simp [this] at hsome
    exact ⟨c, by rw [AList.lookup_erase_ne hdp]; exact hc, hinner⟩

theorem get?_put (hp hparent hkeep) :
    (t.put p b hp hparent hkeep).get? q = if q = p then some b else t.get? q := by
  by_cases h : q = p
  · subst h
    simp [put, get?]
  · simp [put, get?, h]

theorem get?_erase (hp hleaf) :
    (t.erase p hp hleaf).get? q = if q = p then none else t.get? q := by
  by_cases h : q = p
  · subst h
    simp [erase, get?]
  · simp [erase, get?, h]

/-! ### Updates that may be refused -/

theorem children_eq_nil : t.children p = [] ↔ ∀ a, t.get? (p ++ [a]) = none := by
  simp only [List.eq_nil_iff_forall_not_mem, mem_children, Option.not_isSome_iff_eq_none]

/-- `put`, where the tree conditions allow it. -/
def tryPut [DecidablePred inner] (t : PathMap α β inner) (p : List α) (b : β) :
    Option (PathMap α β inner) :=
  if h : p ≠ [] ∧ (∃ c ∈ t.get? p.dropLast, inner c) ∧ (inner b ∨ ∀ c ∈ t.get? p, ¬ inner c) then
    some (t.put p b h.1 h.2.1 h.2.2)
  else none

/-- `erase`, where the tree conditions allow it. -/
def tryErase (t : PathMap α β inner) (p : List α) : Option (PathMap α β inner) :=
  if h : p ≠ [] ∧ t.children p = [] then some (t.erase p h.1 (children_eq_nil.mp h.2)) else none

variable {t' : PathMap α β inner}

theorem tryPut_eq_some [DecidablePred inner] (h : t.tryPut p b = some t') :
    t'.get? = Function.update t.get? p (some b) := by
  unfold tryPut at h
  split at h
  · cases h
    funext q
    rw [get?_put, Function.update_apply]
  · cases h

theorem tryErase_eq_some (h : t.tryErase p = some t') :
    t'.get? = Function.update t.get? p none := by
  unfold tryErase at h
  split at h
  · cases h
    funext q
    rw [get?_erase, Function.update_apply]
  · cases h

end PathMap

end Rspacefs.Lib
