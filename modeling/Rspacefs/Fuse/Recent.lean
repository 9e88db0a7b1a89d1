import Mathlib.Data.List.Basic

/-!
# The ring of recent operations

`RecentRing` of `rspacefs-fuse/src/stats.rs` keeps the last operations for the `ops` view. It
first fills an array; when that is full, each operation overwrites the oldest at a moving head.
`collect` finds the operations by two formulas, one for either regime.

## Main definitions

* `Op` — the kinds of operations
* `RecentRing` — the ring, with `push` and `collect`
* `RecentRing.Holds` — the ring holds the newest of the operations pushed

## Main results

* `RecentRing.Holds.push` — a push keeps the invariant
* `collect_pushed` — what is collected are the last operations, newest first
-/

namespace Rspacefs.Fuse

/-- The kinds of FUSE operations. -/
inductive Op
  | lookup | getattr | setattr | readdir | mkdir | rmdir | «open» | read | write | release | create
  | unlink | rename | readlink | symlink | getxattr | listxattr | setxattr | removexattr | fsync
  | flush | statfs | poll
  deriving DecidableEq, Repr

/-- The ring; what it holds does not matter to it. -/
structure RecentRing (α : Type) where
  buf : List α
  head : Nat
  len : Nat
  cap : Nat
  deriving DecidableEq, Repr

namespace RecentRing

variable {α : Type}

def new (cap : Nat) : RecentRing α := ⟨[], 0, 0, cap⟩

/-- Add an operation behind the others. -/
def append (r : RecentRing α) (op : α) : RecentRing α :=
  { r with buf := r.buf ++ [op], len := (r.buf ++ [op]).length }

/-- Put an operation in the place of the one at the head, and move the head on. -/
def overwrite (r : RecentRing α) (op : α) : RecentRing α :=
  { r with buf := r.buf.set r.head op, head := (r.head + 1) % r.cap }

/-- Record an operation; `none` where an index is out of bounds. -/
def push (r : RecentRing α) (op : α) : Option (RecentRing α) :=
  if r.buf.length < r.cap then some (r.append op)
  else if r.head < r.buf.length then some (r.overwrite op)
  else none

/-- Where the operation pushed `i` operations before the last one is. -/
def index (r : RecentRing α) (i : Nat) : Nat :=
  if r.buf.length < r.cap then r.len - (1 + i) else (r.head + r.cap - 1 - i) % r.cap

/-- Up to `max` most recent operations, newest first. -/
def collect (r : RecentRing α) (max : Nat) : Option (List α) :=
  (List.range (min max r.len)).mapM fun i => r.buf[r.index i]?

/-- The operations pushed one after the other. -/
def pushAll (r : RecentRing α) (ops : List α) : Option (RecentRing α) := ops.foldlM push r

/-- The ring holds the first of the operations in `newest`. -/
structure Holds (r : RecentRing α) (newest : List α) : Prop where
  len_eq : r.len = r.buf.length
  size : r.buf.length = min r.cap newest.length
  head_lt : r.head < r.cap
  filling : r.buf.length < r.cap → r.head = 0
  at_index : ∀ i, i < r.buf.length → r.buf[r.index i]? = newest[i]?

variable {r r' : RecentRing α} {newest : List α} {op : α}

/-! ### Where the operations are -/

theorem index_of_filling (h : r.buf.length < r.cap) (i : Nat) : r.index i = r.len - (1 + i) :=
  if_pos h

/-- In a full ring the indices go down from the head, and on from the end. -/
theorem index_of_full {i : Nat} (h : r.buf.length = r.cap) (hhead : r.head < r.cap)
    (hi : i < r.cap) :
    r.index i = if i < r.head then r.head - 1 - i else r.head + r.cap - 1 - i := by
  rw [index, if_neg (by omega)]
  split
  · rw [show r.head + r.cap - 1 - i = r.head - 1 - i + r.cap by omega, Nat.add_mod_right,
      Nat.mod_eq_of_lt (by omega)]
  · rw [Nat.mod_eq_of_lt (by omega)]

theorem holds_new {cap : Nat} (h : 0 < cap) : (new cap : RecentRing α).Holds [] where
  len_eq := rfl
  size := (Nat.min_zero cap).symm
  head_lt := h
  filling _ := rfl
  at_index i hi := absurd hi (Nat.not_lt_zero i)

theorem length_append (r : RecentRing α) (op : α) :
    (r.append op).buf.length = r.buf.length + 1 := List.length_append

theorem length_overwrite (r : RecentRing α) (op : α) :
    (r.overwrite op).buf.length = r.buf.length := List.length_set

/-- The last place is the one behind the others, also in a ring that has just become full and
is read from the head at the start. -/
theorem index_append (h : r.Holds newest) (hroom : r.buf.length < r.cap) {i : Nat}
    (hi : i ≤ r.buf.length) : (r.append op).index i = r.buf.length - i := by
  have hlen := length_append r op
  by_cases hfull : (r.append op).buf.length < r.cap
  · rw [index_of_filling hfull]
    change (r.append op).buf.length - (1 + i) = _
    omega
  · have hhead : (r.append op).head = 0 := h.filling hroom
    have hcap : (r.append op).cap = r.cap := rfl
    rw [index_of_full (by omega) (by omega) (by omega), hhead, hcap, if_neg (Nat.not_lt_zero i)]
    omega

/-- Below its capacity the ring is a stack. -/
theorem Holds.append (h : r.Holds newest) (hroom : r.buf.length < r.cap) :
    (r.append op).Holds (op :: newest) where
  len_eq := rfl
  size := by
    have hsize := h.size
    have hcap : (r.append op).cap = r.cap := rfl
    rw [length_append, hcap, List.length_cons]
    omega
  head_lt := h.head_lt
  filling _ := h.filling hroom
  at_index i hi := by
    rw [length_append] at hi
    rw [index_append h hroom (by omega)]
    change (r.buf ++ [op])[r.buf.length - i]? = _
    cases i with
    | zero => simp
    | succ i =>
      have hold := h.at_index i (by omega)
      rw [index_of_filling hroom, h.len_eq] at hold
      rw [List.getElem?_append_left (by omega), List.getElem?_cons_succ, ← hold]
      congr 1
      omega

theorem head_overwrite (r : RecentRing α) (op : α) (h : r.head < r.cap) :
    (r.overwrite op).head = if r.head + 1 = r.cap then 0 else r.head + 1 := by
  change (r.head + 1) % r.cap = _
  split
  · rename_i hlast
    rw [hlast, Nat.mod_self]
  · exact Nat.mod_eq_of_lt (by omega)

theorem index_overwrite_zero (hfull : r.buf.length = r.cap) (hhead : r.head < r.cap) :
    (r.overwrite op).index 0 = r.head := by
  have hnext := head_overwrite r op hhead
  have hcap : (r.overwrite op).cap = r.cap := rfl
  rw [index_of_full (by rw [length_overwrite, hfull, hcap]) (by rw [hcap]; split at hnext <;> omega)
    (by omega), hcap]
  split at hnext <;> split <;> omega

/-- The other operations stay where they were. -/
theorem index_overwrite_succ (hfull : r.buf.length = r.cap) (hhead : r.head < r.cap) {i : Nat}
    (hi : i + 1 < r.cap) : (r.overwrite op).index (i + 1) = r.index i := by
  have hnext := head_overwrite r op hhead
  have hcap : (r.overwrite op).cap = r.cap := rfl
  rw [index_of_full (by rw [length_overwrite, hfull, hcap]) (by rw [hcap]; split at hnext <;> omega)
    (by omega), hcap, index_of_full hfull hhead (by omega)]
  split at hnext <;> split <;> split <;> omega

/-- At its capacity the ring overwrites its oldest operation. -/
theorem Holds.overwrite (h : r.Holds newest) (hfull : r.buf.length = r.cap) :
    (r.overwrite op).Holds (op :: newest) where
  len_eq := by
    rw [length_overwrite]
    exact h.len_eq
  size := by
    have hsize := h.size
    have hcap : (r.overwrite op).cap = r.cap := rfl
    rw [length_overwrite, hcap, List.length_cons]
    omega
  head_lt := Nat.mod_lt _ (Nat.zero_lt_of_lt h.head_lt)
  filling hroom := by
    have hcap : (r.overwrite op).cap = r.cap := rfl
    rw [length_overwrite] at hroom
    omega
  at_index i hi := by
    have hhead := h.head_lt
    rw [length_overwrite] at hi
    cases i with
    | zero =>
      rw [index_overwrite_zero hfull hhead, List.getElem?_cons_zero]
      exact List.getElem?_set_self (by omega)
    -- the others keep their places: the newest has gone where none of them is
    | succ i =>
      rw [index_overwrite_succ hfull hhead (by omega), List.getElem?_cons_succ,
        ← h.at_index i (by omega)]
      apply List.getElem?_set_ne
      rw [index_of_full hfull hhead (by omega)]
      split <;> omega

/-- A push keeps the invariant, and no index is out of bounds. -/
theorem Holds.push (h : r.Holds newest) (op : α) :
    ∃ r', r.push op = some r' ∧ r'.cap = r.cap ∧ r'.Holds (op :: newest) := by
  unfold RecentRing.push
  by_cases hroom : r.buf.length < r.cap
  · rw [if_pos hroom]
    exact ⟨_, rfl, rfl, h.append hroom⟩
  · have hfull : r.buf.length = r.cap := by
      have := h.size
      omega
    have hhead := h.head_lt
    rw [if_neg hroom, if_pos (by omega)]
    exact ⟨_, rfl, rfl, h.overwrite hfull⟩

theorem Holds.pushAll (h : r.Holds newest) (ops : List α) :
    ∃ r', r.pushAll ops = some r' ∧ r'.cap = r.cap ∧ r'.Holds (ops.reverse ++ newest) := by
  induction ops generalizing r newest with
  | nil => exact ⟨r, rfl, rfl, h⟩
  | cons op ops ih =>
    obtain ⟨r₁, hpush, hcap, h₁⟩ := h.push op
    obtain ⟨r₂, hrest, hcap', h₂⟩ := ih h₁
    refine ⟨r₂, ?_, hcap'.trans hcap, ?_⟩
    · rw [RecentRing.pushAll, List.foldlM_cons, hpush]
      exact hrest
    · rw [List.reverse_cons, List.append_assoc]
      exact h₂

/-! ### What is collected -/

/-- The first elements of a list, looked up one by one. -/
theorem mapM_range_eq_take {l : List α} {get : Nat → Option α} {n : Nat} (hn : n ≤ l.length)
    (h : ∀ i, i < n → get i = l[i]?) : (List.range n).mapM get = some (l.take n) := by
  induction n with
  | zero => rfl
  | succ n ih =>
    have hlast : get n = some l[n] := by
      rw [h n (Nat.lt_succ_self n), List.getElem?_eq_getElem]
    rw [List.range_succ, List.mapM_append, ih (by omega) fun i hi => h i (by omega),
      List.take_succ_eq_append_getElem (by omega)]
    simp [hlast]

theorem Holds.collect (h : r.Holds newest) (max : Nat) :
    r.collect max = some (newest.take (min max (min r.cap newest.length))) := by
  have hsize := h.size
  unfold RecentRing.collect
  rw [h.len_eq, ← hsize]
  apply mapM_range_eq_take (by omega)
  intro i hi
  exact h.at_index i (by omega)

end RecentRing

/-- What is collected are the last operations, newest first, whatever was pushed. -/
theorem collect_pushed {α : Type} (cap : Nat) (hcap : 0 < cap) (ops : List α) (max : Nat) :
    ∃ r, (RecentRing.new cap).pushAll ops = some r ∧
      r.collect max = some (ops.reverse.take (min max (min cap ops.length))) := by
  obtain ⟨r, hpush, hr, h⟩ := (RecentRing.holds_new hcap).pushAll ops
  refine ⟨r, hpush, ?_⟩
  have hcollect := h.collect max
  rw [List.append_nil, List.length_reverse, hr] at hcollect
  exact hcollect

theorem collect_pushed_wrapped :
    ∃ r, (RecentRing.new 3).pushAll [1, 2, 3, 4, 5] = some r ∧ r.collect 9 = some [5, 4, 3] :=
  collect_pushed 3 (by decide) [1, 2, 3, 4, 5] 9

end Rspacefs.Fuse
