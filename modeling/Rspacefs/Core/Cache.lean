import Rspacefs.Lib.EState
import Rspacefs.Lib.Memo
import Rspacefs.Core.Layer

/-!
# The caches of the lower layers

`LayerFS` looks up whiteout names and opaque markers of a lower layer once per directory
and keeps what it found in two tables for as long as it lives. `LayerFS.resolve` in
`Core.Layer` probes the layers each time; here are the probes and `resolve` with the
tables, as programs on them.

A table is right as long as the layer does not change. What a look-up gives when it did
change is `whiteoutNames` and `isOpaqueDir`: the entry, if there is one, else the layer
as it is now.

## Main definitions

* `Caches` — the two tables
* `Cached.resolve`, `Cached.contentAt` — the source's `resolve`, and reading a file

## Main results

* `Cached.resolve_gives` — the answer is that of `resolveWith` on what the tables give
* `Caches.Sound.resolve_eq` — over sound tables it is the answer of `LayerFS.resolve`
* `resolveLower_eq_some`, `resolve_eq_some` — no layer before the one found has the path
-/

namespace Rspacefs

open Lib LayerFS

variable {υ ℓ : Type} [FileSystem ℓ]

/-- The tables, by the index of the lower layer and the directory. -/
structure Caches where
  whiteouts : Memo (Nat × Path) (List Name)
  opaqueDirs : Memo (Nat × Path) Bool

/-- No look-up was made yet. -/
def Caches.empty : Caches := ⟨fun _ => none, fun _ => none⟩

/-- A program on the tables. -/
abbrev CacheM (α : Type) := EStateM VfsError Caches α

/-- The whiteout names that a lower layer has in a directory now. -/
def liveWhiteouts (lower : List ℓ) (key : Nat × Path) : List Name :=
  match lower[key.1]? with
  | some layer => collectWhiteouts layer key.2
  | none => []

/-- Whether a directory of a lower layer has an opaque marker now. -/
def liveOpaque (lower : List ℓ) (key : Nat × Path) : Bool :=
  match lower[key.1]? with
  | some layer => unwrapOr false (existsAt layer (opaquePath key.2))
  | none => false

/-- What a look-up of the whiteout names gives. -/
def Caches.whiteoutNames (κ : Caches) (lower : List ℓ) : Nat × Path → List Name :=
  κ.whiteouts.get (liveWhiteouts lower)

/-- What a look-up of an opaque marker gives. -/
def Caches.isOpaqueDir (κ : Caches) (lower : List ℓ) : Nat × Path → Bool :=
  κ.opaqueDirs.get (liveOpaque lower)

namespace Cached

/-- Cached: does lower layer `i` contain `<parent>/.wh.<name>`? -/
def lowerHasWhiteout (lower : List ℓ) (i : Nat) (parent : Path) (name : Name) : CacheM Bool := do
  let κ ← get
  set { κ with whiteouts := κ.whiteouts.fill (liveWhiteouts lower) (i, parent) }
  return decide (name ∈ κ.whiteoutNames lower (i, parent))

/-- Cached: has a directory of lower layer `i` an opaque marker? -/
def lowerIsOpaque (lower : List ℓ) (i : Nat) (dir : Path) : CacheM Bool := do
  let κ ← get
  set { κ with opaqueDirs := κ.opaqueDirs.fill (liveOpaque lower) (i, dir) }
  return κ.isOpaqueDir lower (i, dir)

/-- The loop of `lower_is_opaque_above`, over a directory given last component first. -/
def lowerOpaqueWalk (lower : List ℓ) (i : Nat) : List Name → CacheM Bool
  | [] => lowerIsOpaque lower i []
  | n :: up => do
    if ← lowerIsOpaque lower i (n :: up).reverse then return true
    else lowerOpaqueWalk lower i up

/-- The loop of `resolve` over the lower layers, from index `i` on. -/
def resolveLower (lower : List ℓ) (path : Path) : Nat → List ℓ → CacheM (Option (Resolved ℓ))
  | _, [] => return none
  | i, layer :: rest => do
    let (parent, name) := splitPath path
    if ← lowerHasWhiteout lower i parent name then return none
    else if ← ask fun _ => existsAt layer path then return some (.lower i layer)
    else if ← lowerOpaqueWalk lower i parent.reverse then return none
    else resolveLower lower path (i + 1) rest

variable [FileSystem υ]

/-- `resolve`. -/
def resolve (path : Path) (fs : LayerFS υ ℓ) : CacheM (Option (Resolved ℓ)) := do
  if ← ask fun _ => isWhiteout path fs.upper then return none
  else if ← ask fun _ => existsAt fs.upper path then return some .upper
  else if ← ask fun _ => isOpaqueAbove path fs.upper then return none
  else resolveLower fs.lower path 0 fs.lower

/-- Opening a file through the overlay and reading it to the end. -/
def contentAt (path : Path) (fs : LayerFS υ ℓ) : CacheM Bytes := do
  let resolved ← resolve path fs
  ask fun _ => do (← (← orNotFound resolved).openFile path fs).readToEnd

end Cached

/-! ### What the tables give -/

/-- The loop of `resolve` over lower layers whose whiteout names and opaque markers are
given. -/
def resolveWith (names : Nat × Path → List Name) (isOpaque : Nat × Path → Bool) (path : Path) :
    Nat → List ℓ → VfsResult (Option (Resolved ℓ))
  | _, [] => return none
  | i, layer :: rest => do
    if (splitPath path).2 ∈ names (i, (splitPath path).1) then return none
    else if ← existsAt layer path then return some (.lower i layer)
    else if (splitPath path).1.inits.any fun dir => isOpaque (i, dir) then return none
    else resolveWith names isOpaque path (i + 1) rest

/-- More entries in the tables, all of them as the layers are now. -/
structure Caches.Extends (lower : List ℓ) (κ κ' : Caches) : Prop where
  whiteouts : Memo.Extends (liveWhiteouts lower) κ.whiteouts κ'.whiteouts
  opaqueDirs : Memo.Extends (liveOpaque lower) κ.opaqueDirs κ'.opaqueDirs

theorem Caches.Extends.refl (lower : List ℓ) (κ : Caches) : κ.Extends lower κ :=
  ⟨Memo.Extends.refl _ _, Memo.Extends.refl _ _⟩

/-- All entries are as the layers are now. -/
structure Caches.Sound (lower : List ℓ) (κ : Caches) : Prop where
  whiteouts : Memo.Sound (liveWhiteouts lower) κ.whiteouts
  opaqueDirs : Memo.Sound (liveOpaque lower) κ.opaqueDirs

theorem Caches.sound_empty (lower : List ℓ) : Caches.empty.Sound lower :=
  ⟨Memo.sound_empty _, Memo.sound_empty _⟩

/-! ### The cached probes -/

namespace Cached

variable {lower : List ℓ} {κ : Caches} {i : Nat} {path : Path} {α β : Type}

/-- From tables that extend `κ`, the program gives what is stated and only adds entries. -/
def Gives (lower : List ℓ) (κ : Caches) (x : CacheM α) (result : VfsResult α) : Prop :=
  Triple (κ.Extends lower) x (fun a κ' => result = .ok a ∧ κ.Extends lower κ')
    (fun κ' => (∃ e, result = .error e) ∧ κ.Extends lower κ')

theorem Gives.pure (a : α) : Gives lower κ (Pure.pure a) (.ok a) :=
  Triple.pure a fun _ h => ⟨rfl, h⟩

theorem Gives.ask (result : VfsResult α) : Gives lower κ (Lib.ask fun _ => result) result := by
  intro κ' h
  rw [run_ask]
  cases result with
  | ok a => exact ⟨rfl, h⟩
  | error e => exact ⟨⟨e, rfl⟩, h⟩

theorem Gives.bind {x : CacheM α} {f : α → CacheM β} {result : VfsResult α}
    {g : α → VfsResult β} (hx : Gives lower κ x result) (hf : ∀ a, Gives lower κ (f a) (g a)) :
    Gives lower κ (x >>= f) (result >>= g) := by
  refine Triple.bind (hx.weaken (fun _ h => h) (fun _ _ h => h) ?_) fun a κ' h => ?_
  · rintro κ' ⟨⟨e, rfl⟩, h⟩
    exact ⟨⟨e, rfl⟩, h⟩
  · rw [h.1, ok_bind]
    exact hf a κ' h.2

theorem Gives.ite {c : Prop} [Decidable c] {x y : CacheM α} {a b : VfsResult α}
    (hx : Gives lower κ x a) (hy : Gives lower κ y b) :
    Gives lower κ (if c then x else y) (if c then a else b) := by
  split
  · exact hx
  · exact hy

theorem lowerHasWhiteout_gives (lower : List ℓ) (κ : Caches) (i : Nat) (parent : Path) (name : Name) :
    Gives lower κ (lowerHasWhiteout lower i parent name)
      (.ok (decide (name ∈ κ.whiteoutNames lower (i, parent)))) := by
  intro κ' h
  have hget := h.whiteouts.get_eq (i, parent)
  refine ⟨?_, h.whiteouts.fill _, h.opaqueDirs⟩
  rw [Caches.whiteoutNames, Caches.whiteoutNames, hget]

theorem lowerIsOpaque_gives (lower : List ℓ) (κ : Caches) (i : Nat) (dir : Path) :
    Gives lower κ (lowerIsOpaque lower i dir) (.ok (κ.isOpaqueDir lower (i, dir))) := by
  intro κ' h
  have hget := h.opaqueDirs.get_eq (i, dir)
  refine ⟨?_, h.whiteouts, h.opaqueDirs.fill _⟩
  rw [Caches.isOpaqueDir, Caches.isOpaqueDir, hget]

theorem lowerOpaqueWalk_gives (lower : List ℓ) (κ : Caches) (i : Nat) (up : List Name) :
    Gives lower κ (lowerOpaqueWalk lower i up)
      (.ok (up.reverse.inits.any fun dir => κ.isOpaqueDir lower (i, dir))) := by
  induction up with
  | nil =>
    rw [lowerOpaqueWalk, List.reverse_nil, List.inits, List.any_cons, List.any_nil,
      Bool.or_false]
    exact lowerIsOpaque_gives lower κ i []
  | cons n up ih =>
    have hwalk := Gives.bind (lowerIsOpaque_gives lower κ i (n :: up).reverse)
      fun b => Gives.ite (c := b = true) (Gives.pure true) ih
    have hany : ((n :: up).reverse.inits.any fun dir => κ.isOpaqueDir lower (i, dir)) =
        (κ.isOpaqueDir lower (i, (n :: up).reverse) ||
          up.reverse.inits.any fun dir => κ.isOpaqueDir lower (i, dir)) := by
      simp [List.inits_append, Bool.or_comm]
    rw [hany]
    cases h : κ.isOpaqueDir lower (i, (n :: up).reverse) with
    | true => rwa [h] at hwalk
    | false => rwa [h] at hwalk

theorem resolveLower_gives (rest : List ℓ) :
    Gives lower κ (resolveLower lower path i rest)
      (resolveWith (κ.whiteoutNames lower) (κ.isOpaqueDir lower) path i rest) := by
  induction rest generalizing i with
  | nil => exact Gives.pure none
  | cons layer rest ih =>
    have hloop := Gives.bind (lowerHasWhiteout_gives lower κ i (splitPath path).1 (splitPath path).2)
      fun mark => Gives.ite (c := mark = true) (Gives.pure none) <|
        Gives.bind (Gives.ask (existsAt layer path)) fun there =>
          Gives.ite (c := there = true) (Gives.pure (some (.lower i layer))) <|
            Gives.bind (lowerOpaqueWalk_gives lower κ i (splitPath path).1.reverse) fun hidden =>
              Gives.ite (c := hidden = true) (Gives.pure none) (ih (i := i + 1))
    simp only [ok_bind, List.reverse_reverse, decide_eq_true_eq] at hloop
    exact hloop

end Cached

/-! ### `resolve` and reading -/

variable [FileSystem υ] {lower : List ℓ} {κ : Caches} {path : Path} {fs : LayerFS υ ℓ}

/-- `resolve` on what the tables give. -/
def Caches.resolve (κ : Caches) (path : Path) (fs : LayerFS υ ℓ) :
    VfsResult (Option (Resolved ℓ)) := do
  if ← isWhiteout path fs.upper then return none
  else if ← existsAt fs.upper path then return some .upper
  else if ← isOpaqueAbove path fs.upper then return none
  else resolveWith (κ.whiteoutNames fs.lower) (κ.isOpaqueDir fs.lower) path 0 fs.lower

namespace Cached

theorem resolve_gives (path : Path) (fs : LayerFS υ ℓ) (κ : Caches) :
    Gives fs.lower κ (resolve path fs) (κ.resolve path fs) :=
  Gives.bind (Gives.ask _) fun mark => Gives.ite (c := mark = true) (Gives.pure none) <|
    Gives.bind (Gives.ask _) fun there => Gives.ite (c := there = true) (Gives.pure _) <|
      Gives.bind (Gives.ask _) fun hidden => Gives.ite (c := hidden = true) (Gives.pure none)
        (resolveLower_gives fs.lower)

theorem contentAt_gives (path : Path) (fs : LayerFS υ ℓ) (κ : Caches) :
    Gives fs.lower κ (contentAt path fs) (do
      let resolved ← κ.resolve path fs
      (← (← orNotFound resolved).openFile path fs).readToEnd) :=
  Gives.bind (resolve_gives path fs κ) fun _ => Gives.ask _

/-- What a program with a known result returns. -/
theorem Gives.run_eq_ok_iff {α : Type} {x : CacheM α} {result : VfsResult α}
    (h : Gives lower κ x result) {a : α} :
    (∃ κ', x.run κ = .ok a κ') ↔ result = .ok a := by
  have hstart := h κ (Caches.Extends.refl lower κ)
  cases hrun : x.run κ with
  | ok b κ' =>
    rw [hrun] at hstart
    rw [hstart.1, Except.ok.injEq]
    exact ⟨fun ⟨_, hb⟩ => (EStateM.Result.ok.inj hb).1, fun hb => ⟨κ', by rw [hb]⟩⟩
  | error e κ' =>
    rw [hrun] at hstart
    obtain ⟨⟨e', rfl⟩, -⟩ := hstart
    exact ⟨nofun, nofun⟩

end Cached

/-! ### Tables that are right -/

/-- The walk to the root asks every directory above. -/
theorem lowerOpaqueWalk_eq_any (layer : ℓ) (up : List Name) :
    LayerFS.lowerOpaqueWalk layer up =
      up.reverse.inits.any fun dir => unwrapOr false (existsAt layer (opaquePath dir)) := by
  induction up with
  | nil => simp [LayerFS.lowerOpaqueWalk]
  | cons n up ih =>
    rw [LayerFS.lowerOpaqueWalk, ih]
    simp [List.inits_append, Bool.or_comm]

/-- With the present names and markers the loop is that of `LayerFS`. -/
theorem resolveWith_live (path : Path) (above rest : List ℓ) :
    resolveWith (liveWhiteouts (above ++ rest)) (liveOpaque (above ++ rest)) path above.length rest =
      LayerFS.resolveLower path above.length rest := by
  induction rest generalizing above with
  | nil => rfl
  | cons layer rest ih =>
    have hnext := ih (above ++ [layer])
    rw [List.append_assoc, List.singleton_append, List.length_append, List.length_singleton] at hnext
    have hlayer : (above ++ layer :: rest)[above.length]? = some layer := by simp
    have hnames : liveWhiteouts (above ++ layer :: rest) (above.length, (splitPath path).1) =
        collectWhiteouts layer (splitPath path).1 := by
      rw [liveWhiteouts, hlayer]
    have hopq : (fun dir => liveOpaque (above ++ layer :: rest) (above.length, dir)) =
        fun dir => unwrapOr false (existsAt layer (opaquePath dir)) := by
      funext dir
      rw [liveOpaque, hlayer]
    -- the walk goes up from the parent, the table is asked from the root down
    have hwalk := lowerOpaqueWalk_eq_any layer (splitPath path).1.reverse
    rw [List.reverse_reverse] at hwalk
    rw [resolveWith, hnames, hopq, ← hwalk, hnext]
    have hunfold : LayerFS.resolveLower path above.length (layer :: rest) = (do
        if decide ((splitPath path).2 ∈ collectWhiteouts layer (splitPath path).1) then return none
        else if ← existsAt layer path then return some (.lower above.length layer)
        else if LayerFS.lowerOpaqueWalk layer (splitPath path).1.reverse then return none
        else LayerFS.resolveLower path (above.length + 1) rest) := rfl
    rw [hunfold]
    simp only [decide_eq_true_eq]

/-- Over sound tables the answer is that of `LayerFS.resolve`. -/
theorem Caches.Sound.resolve_eq (h : κ.Sound fs.lower) (path : Path) :
    κ.resolve path fs = LayerFS.resolve path fs := by
  have hnames : κ.whiteoutNames fs.lower = liveWhiteouts fs.lower :=
    funext h.whiteouts.get_eq
  have hopq : κ.isOpaqueDir fs.lower = liveOpaque fs.lower :=
    funext h.opaqueDirs.get_eq
  have hlive := resolveWith_live path [] fs.lower
  rw [List.nil_append, List.length_nil] at hlive
  unfold Caches.resolve
  rw [hnames, hopq, hlive]
  rfl

/-! ### Layers that answer, and layers that let a path pass -/

variable {names names' : Nat × Path → List Name} {isOpaque isOpaque' : Nat × Path → Bool} {i : Nat}

/-- The layer neither has the path nor hides it from the layers below. -/
structure Passes (names : Nat × Path → List Name) (isOpaque : Nat × Path → Bool) (path : Path)
    (i : Nat) (layer : ℓ) : Prop where
  noWhiteout : (splitPath path).2 ∉ names (i, (splitPath path).1)
  missing : existsAt layer path = .ok false
  transparent : ((splitPath path).1.inits.any fun dir => isOpaque (i, dir)) = false

theorem Passes.resolveWith {layer : ℓ} (h : Passes names isOpaque path i layer) (rest : List ℓ) :
    resolveWith names isOpaque path i (layer :: rest) =
      resolveWith names isOpaque path (i + 1) rest := by
  rw [Rspacefs.resolveWith, if_neg h.noWhiteout, h.missing, ok_bind, if_neg Bool.false_ne_true,
    h.transparent, if_neg Bool.false_ne_true]

/-- The tables agree on the layers from `lo` on and before `hi`. -/
def AgreeOn {α : Type} (lo hi : Nat) (f g : Nat × Path → α) : Prop :=
  ∀ j dir, lo ≤ j → j < hi → f (j, dir) = g (j, dir)

theorem AgreeOn.mono {α : Type} {f g : Nat × Path → α} {lo hi lo' hi' : Nat}
    (h : AgreeOn lo hi f g) (hlo : lo ≤ lo') (hhi : hi' ≤ hi) : AgreeOn lo' hi' f g :=
  fun j dir hj hlt => h j dir (hlo.trans hj) (hlt.trans_le hhi)

/-- A layer answers whatever is below it, or lets the path pass. -/
theorem resolveWith_cons (names : Nat × Path → List Name) (isOpaque : Nat × Path → Bool)
    (path : Path) (i : Nat) (layer : ℓ) :
    (∃ answer : VfsResult (Option (Resolved ℓ)),
      (∀ r, answer = .ok (some r) → r = .lower i layer) ∧
      ∀ names' isOpaque' rest, AgreeOn i (i + 1) names' names →
        AgreeOn i (i + 1) isOpaque' isOpaque →
        resolveWith names' isOpaque' path i (layer :: rest) = answer) ∨
      Passes names isOpaque path i layer := by
  have hunfold : ∀ names' isOpaque' rest, AgreeOn i (i + 1) names' names →
      AgreeOn i (i + 1) isOpaque' isOpaque →
      resolveWith names' isOpaque' path i (layer :: rest) =
        (do
          if (splitPath path).2 ∈ names (i, (splitPath path).1) then return none
          else if ← existsAt layer path then return some (.lower i layer)
          else if (splitPath path).1.inits.any fun dir => isOpaque (i, dir) then return none
          else resolveWith names' isOpaque' path (i + 1) rest) := by
    intro names' isOpaque' rest hnames hopq
    have hdirs : (fun dir => isOpaque' (i, dir)) = fun dir => isOpaque (i, dir) :=
      funext fun dir => hopq i dir (Nat.le_refl i) (Nat.lt_succ_self i)
    rw [resolveWith, hnames i _ (Nat.le_refl i) (Nat.lt_succ_self i), hdirs]
  -- each of the first three tests answers; the path is let pass behind all of them
  by_cases hmark : (splitPath path).2 ∈ names (i, (splitPath path).1)
  · refine Or.inl ⟨.ok none, nofun, fun names' isOpaque' rest hnames hopq => ?_⟩
    rw [hunfold names' isOpaque' rest hnames hopq, if_pos hmark]
    rfl
  cases hthere : existsAt layer path with
  | error e =>
    refine Or.inl ⟨.error e, nofun, fun names' isOpaque' rest hnames hopq => ?_⟩
    rw [hunfold names' isOpaque' rest hnames hopq, if_neg hmark, hthere]
    rfl
  | ok there =>
    obtain rfl | rfl := there.eq_false_or_eq_true
    · refine Or.inl ⟨.ok (some (.lower i layer)), ?_, fun names' isOpaque' rest hnames hopq => ?_⟩
      · rintro r ⟨⟩
        rfl
      · rw [hunfold names' isOpaque' rest hnames hopq, if_neg hmark, hthere]
        rfl
    · cases htransparent : (splitPath path).1.inits.any fun dir => isOpaque (i, dir) with
      | false => exact Or.inr ⟨hmark, hthere, htransparent⟩
      | true =>
        refine Or.inl ⟨.ok none, nofun, fun names' isOpaque' rest hnames hopq => ?_⟩
        rw [hunfold names' isOpaque' rest hnames hopq, if_neg hmark, hthere, ok_bind,
          if_neg Bool.false_ne_true, htransparent, if_pos rfl]
        rfl

/-- Some of the first layers answers whatever is below, or all of them let the path pass. -/
theorem resolveWith_append (names : Nat × Path → List Name) (isOpaque : Nat × Path → Bool)
    (path : Path) (i : Nat) (above : List ℓ) :
    (∃ answer : VfsResult (Option (Resolved ℓ)),
      (∀ j l, answer = .ok (some (.lower j l)) → j < i + above.length) ∧
      ∀ names' isOpaque' rest, AgreeOn i (i + above.length) names' names →
        AgreeOn i (i + above.length) isOpaque' isOpaque →
        resolveWith names' isOpaque' path i (above ++ rest) = answer) ∨
      ∀ names' isOpaque' rest, AgreeOn i (i + above.length) names' names →
        AgreeOn i (i + above.length) isOpaque' isOpaque →
        resolveWith names' isOpaque' path i (above ++ rest) =
          resolveWith names' isOpaque' path (i + above.length) rest := by
  induction above generalizing i with
  | nil => exact Or.inr fun names' isOpaque' rest _ _ => rfl
  | cons layer above ih =>
    have hlen : i + (layer :: above).length = i + 1 + above.length := by
      rw [List.length_cons]
      omega
    rw [hlen]
    obtain ⟨answer, hfound, hanswer⟩ | hpass := resolveWith_cons names isOpaque path i layer
    · refine Or.inl ⟨answer, fun j l hj => ?_, fun names' isOpaque' rest hnames hopq => ?_⟩
      · obtain ⟨rfl, -⟩ := Resolved.lower.inj (hfound _ hj)
        omega
      · exact hanswer _ _ _ (hnames.mono (Nat.le_refl i) (by omega))
          (hopq.mono (Nat.le_refl i) (by omega))
    · -- the first layer lets the path pass under every table that agrees on it
      have hnext : ∀ names' isOpaque' rest, AgreeOn i (i + 1 + above.length) names' names →
          AgreeOn i (i + 1 + above.length) isOpaque' isOpaque →
          resolveWith names' isOpaque' path i (layer :: above ++ rest) =
            resolveWith names' isOpaque' path (i + 1) (above ++ rest) := by
        intro names' isOpaque' rest hnames hopq
        refine Passes.resolveWith ⟨?_, hpass.missing, ?_⟩ _
        · rw [hnames i _ (Nat.le_refl i) (by omega)]
          exact hpass.noWhiteout
        · rw [← hpass.transparent]
          exact congrArg _ (funext fun dir => hopq i dir (Nat.le_refl i) (by omega))
      obtain ⟨answer, hfound, hanswer⟩ | hbelow := ih (i + 1)
      · refine Or.inl ⟨answer, hfound, fun names' isOpaque' rest hnames hopq => ?_⟩
        rw [hnext names' isOpaque' rest hnames hopq]
        exact hanswer _ _ _ (hnames.mono (by omega) (Nat.le_refl _))
          (hopq.mono (by omega) (Nat.le_refl _))
      · refine Or.inr fun names' isOpaque' rest hnames hopq => ?_
        rw [hnext names' isOpaque' rest hnames hopq]
        exact hbelow _ _ _ (hnames.mono (by omega) (Nat.le_refl _))
          (hopq.mono (by omega) (Nat.le_refl _))

/-- The loop looks only at its own layers. -/
theorem resolveWith_congr (layers : List ℓ) (hnames : AgreeOn i (i + layers.length) names names')
    (hopq : AgreeOn i (i + layers.length) isOpaque isOpaque') :
    resolveWith names isOpaque path i layers = resolveWith names' isOpaque' path i layers := by
  induction layers generalizing i with
  | nil => rfl
  | cons layer layers ih =>
    rw [List.length_cons] at hnames hopq
    have hdirs : (fun dir => isOpaque (i, dir)) = fun dir => isOpaque' (i, dir) :=
      funext fun dir => hopq i dir (Nat.le_refl i) (by omega)
    rw [resolveWith, resolveWith, hnames i _ (Nat.le_refl i) (by omega), hdirs,
      ih (hnames.mono (by omega) (by omega)) (hopq.mono (by omega) (by omega))]

/-! ### Where a path was found -/

theorem resolveLower_cons (path : Path) (i : Nat) (layer : ℓ) (rest : List ℓ) :
    resolveLower path i (layer :: rest) = (do
      if ← lowerHasWhiteout layer (splitPath path).1 (splitPath path).2 then return none
      else if ← existsAt layer path then return some (.lower i layer)
      else if ← lowerIsOpaqueAbove layer (splitPath path).1 then return none
      else resolveLower path (i + 1) rest) := rfl

/-- The loop over the lower layers returns the first one in which the path exists. -/
theorem resolveLower_eq_some {i : Nat} {r : Resolved ℓ}
    (h : resolveLower path i lower = .ok (some r)) :
    ∃ above l below, lower = above ++ l :: below ∧ r = .lower (i + above.length) l ∧
      existsAt l path = .ok true ∧ ∀ m ∈ above, existsAt m path = .ok false := by
  induction lower generalizing i with
  | nil => cases h
  | cons l lower ih =>
    rw [resolveLower] at h
    obtain ⟨mark, -, h⟩ := except_bind_eq_ok.mp h
    obtain rfl | rfl := mark.eq_false_or_eq_true
    · cases h
    obtain ⟨there, hthere, h⟩ := except_bind_eq_ok.mp h
    obtain rfl | rfl := there.eq_false_or_eq_true
    · obtain rfl := Option.some.inj (Except.ok.inj h)
      exact ⟨[], l, lower, rfl, rfl, hthere, by simp⟩
    obtain ⟨hidden, -, h⟩ := except_bind_eq_ok.mp h
    obtain rfl | rfl := hidden.eq_false_or_eq_true
    · cases h
    obtain ⟨above, l', below, rfl, rfl, hfound, habove⟩ := ih h
    refine ⟨l :: above, l', below, rfl, ?_, hfound, List.forall_mem_cons.mpr ⟨hthere, habove⟩⟩
    rw [List.length_cons, Nat.add_right_comm, Nat.add_assoc]

/-- Where `resolve` found a path: in the upper layer, or in the first lower layer in
which it exists when the upper layer does not have it. Its whiteout is in neither case
in the upper layer. -/
theorem resolve_eq_some {r : Resolved ℓ} (h : resolve path fs = .ok (some r)) :
    existsAt fs.upper (whiteoutPath path) = .ok false ∧
    (r = .upper ∧ existsAt fs.upper path = .ok true ∨
      existsAt fs.upper path = .ok false ∧ ∃ above l below, fs.lower = above ++ l :: below ∧
        r = .lower above.length l ∧ existsAt l path = .ok true ∧
          ∀ m ∈ above, existsAt m path = .ok false) := by
  obtain ⟨mark, hmark, h⟩ := except_bind_eq_ok.mp h
  obtain rfl | rfl := mark.eq_false_or_eq_true
  · cases h
  refine ⟨hmark, ?_⟩
  obtain ⟨there, hthere, h⟩ := except_bind_eq_ok.mp h
  obtain rfl | rfl := there.eq_false_or_eq_true
  · obtain rfl := Option.some.inj (Except.ok.inj h)
    exact Or.inl ⟨rfl, hthere⟩
  obtain ⟨hidden, -, h⟩ := except_bind_eq_ok.mp h
  obtain rfl | rfl := hidden.eq_false_or_eq_true
  · cases h
  obtain ⟨above, l, below, hlower, hr, hfound, habove⟩ := resolveLower_eq_some h
  rw [Nat.zero_add] at hr
  exact Or.inr ⟨hthere, above, l, below, hlower, hr, hfound, habove⟩

/-- What reading the entry that was found gives. -/
def LayerFS.Resolved.contentAt (path : Path) (fs : LayerFS υ ℓ) (r : Resolved ℓ) :
    VfsResult Bytes := do
  (← r.openFile path fs).readToEnd

/-- It is the same whatever the other lower layers are. -/
theorem LayerFS.Resolved.contentAt_lower (r : Resolved ℓ) (u : υ) (lower' : List ℓ) :
    r.contentAt path ⟨u, lower'⟩ = r.contentAt path ⟨u, lower⟩ := by
  cases r <;> rfl

theorem contentAt_eq_ok {c : Bytes} : Rspacefs.contentAt fs path = .ok c ↔
    ∃ r, LayerFS.resolve path fs = .ok (some r) ∧ r.contentAt path fs = .ok c := by
  have hcontent : Rspacefs.contentAt fs path = (do
      let resolved ← LayerFS.resolve path fs
      (← (← orNotFound resolved).openFile path fs).readToEnd) := by
    change (LayerFS.openFile path fs >>= _) = _
    rw [LayerFS.openFile]
    cases LayerFS.resolve path fs with
    | error e => rfl
    | ok resolved => cases resolved <;> rfl
  rw [hcontent, except_bind_eq_ok]
  constructor
  · rintro ⟨resolved, hresolved, hc⟩
    cases resolved with
    | none => cases hc
    | some r => exact ⟨r, hresolved, hc⟩
  · rintro ⟨r, hr, hc⟩
    exact ⟨some r, hr, hc⟩

theorem Cached.contentAt_eq_ok {c : Bytes} :
    (∃ κ', (Cached.contentAt path fs).run κ = .ok c κ') ↔
      ∃ r, κ.resolve path fs = .ok (some r) ∧ r.contentAt path fs = .ok c := by
  rw [(Cached.contentAt_gives path fs κ).run_eq_ok_iff, except_bind_eq_ok]
  constructor
  · rintro ⟨resolved, hresolved, hc⟩
    cases resolved with
    | none => cases hc
    | some r => exact ⟨r, hresolved, hc⟩
  · rintro ⟨r, hr, hc⟩
    exact ⟨some r, hr, hc⟩

/-- What is true of every read that succeeds. -/
theorem Cached.forall_contentAt_iff {P : Bytes → Prop} :
    (∀ c κ', (Cached.contentAt path fs).run κ = .ok c κ' → P c) ↔
      ∀ c, (∃ r, κ.resolve path fs = .ok (some r) ∧ r.contentAt path fs = .ok c) → P c := by
  simp only [← Cached.contentAt_eq_ok, forall_exists_index]

/-! ### One layer in place of another -/

/-- The entries for all layers but the `n`-th are as the layers are now. -/
structure Caches.SoundBut (lower : List ℓ) (n : Nat) (κ : Caches) : Prop where
  whiteouts : ∀ i dir, i ≠ n → Memo.SoundAt (liveWhiteouts lower) κ.whiteouts (i, dir)
  opaqueDirs : ∀ i dir, i ≠ n → Memo.SoundAt (liveOpaque lower) κ.opaqueDirs (i, dir)

theorem Caches.soundBut_empty (lower : List ℓ) (n : Nat) : Caches.empty.SoundBut lower n :=
  ⟨fun _ _ _ _ h => (nomatch h), fun _ _ _ _ h => (nomatch h)⟩

variable {above below : List ℓ} {l l' : ℓ} {u : υ}

/-- The layers other than the replaced one have the markers they had. -/
theorem Caches.SoundBut.agreeOn (h : κ.SoundBut (above ++ l' :: below) above.length) (l : ℓ)
    (lo hi : Nat) (hout : hi ≤ above.length ∨ above.length < lo) :
    AgreeOn lo hi (κ.whiteoutNames (above ++ l' :: below)) (liveWhiteouts (above ++ l :: below)) ∧
      AgreeOn lo hi (κ.isOpaqueDir (above ++ l' :: below)) (liveOpaque (above ++ l :: below)) := by
  have hlayer : ∀ j, j ≠ above.length → (above ++ l' :: below)[j]? = (above ++ l :: below)[j]? := by
    intro j hj
    rw [List.getElem?_append, List.getElem?_append]
    split
    · rfl
    · rename_i hge
      obtain ⟨k, hk⟩ := Nat.exists_eq_succ_of_ne_zero (n := j - above.length) (by omega)
      rw [hk, List.getElem?_cons_succ, List.getElem?_cons_succ]
  constructor
  · intro j dir hj hlt
    rw [Caches.whiteoutNames, (h.whiteouts j dir (by omega)).get_eq, liveWhiteouts, liveWhiteouts,
      hlayer j (by omega)]
  · intro j dir hj hlt
    rw [Caches.isOpaqueDir, (h.opaqueDirs j dir (by omega)).get_eq, liveOpaque, liveOpaque,
      hlayer j (by omega)]

/-- The upper layer answers whatever is below it, or lets the path pass. -/
theorem Caches.resolve_upper (path : Path) (u : υ) :
    (∃ answer : VfsResult (Option (Resolved ℓ)), (∀ j m, answer ≠ .ok (some (.lower j m))) ∧
      ∀ (κ : Caches) lower, κ.resolve path ⟨u, lower⟩ = answer) ∨
      ∀ (κ : Caches) (lower : List ℓ), κ.resolve path ⟨u, lower⟩ =
        resolveWith (κ.whiteoutNames lower) (κ.isOpaqueDir lower) path 0 lower := by
  unfold Caches.resolve
  dsimp only
  cases isWhiteout path u with
  | error e => exact Or.inl ⟨.error e, nofun, fun _ _ => rfl⟩
  | ok mark =>
    obtain rfl | rfl := mark.eq_false_or_eq_true
    · exact Or.inl ⟨.ok none, nofun, fun _ _ => rfl⟩
    cases existsAt u path with
    | error e => exact Or.inl ⟨.error e, nofun, fun _ _ => rfl⟩
    | ok there =>
      obtain rfl | rfl := there.eq_false_or_eq_true
      · exact Or.inl ⟨.ok (some .upper), nofun, fun _ _ => rfl⟩
      cases isOpaqueAbove path u with
      | error e => exact Or.inl ⟨.error e, nofun, fun _ _ => rfl⟩
      | ok hidden =>
        obtain rfl | rfl := hidden.eq_false_or_eq_true
        · exact Or.inl ⟨.ok none, nofun, fun _ _ => rfl⟩
        · exact Or.inr fun _ _ => rfl

/-- Empty tables change nothing. -/
theorem Caches.resolve_empty (path : Path) (fs : LayerFS υ ℓ) :
    Caches.empty.resolve path fs = LayerFS.resolve path fs :=
  (Caches.sound_empty fs.lower).resolve_eq path

/-- The loop below one of the layers. -/
theorem resolveWith_live_below (path : Path) (above : List ℓ) (l : ℓ) (below : List ℓ) :
    resolveWith (liveWhiteouts (above ++ l :: below)) (liveOpaque (above ++ l :: below)) path
        (above.length + 1) below = resolveLower path (above.length + 1) below := by
  have hlive := resolveWith_live path (above ++ [l]) below
  rwa [List.append_assoc, List.singleton_append, List.length_append,
    List.length_singleton] at hlive

/-- What becomes of a path when a layer is replaced, by the new layer and its entries in
the tables: it resolves as before and not to that layer; or to nothing but the new layer;
or the new layer lets it pass, and before it did not. -/
theorem resolve_replace (path : Path) (u : υ) (l : ℓ)
    (h : κ.SoundBut (above ++ l' :: below) above.length) :
    (κ.resolve path ⟨u, above ++ l' :: below⟩ =
        LayerFS.resolve path ⟨u, above ++ l :: below⟩ ∧
      ∀ m, LayerFS.resolve path ⟨u, above ++ l :: below⟩ ≠ .ok (some (.lower above.length m))) ∨
    (¬ Passes (κ.whiteoutNames (above ++ l' :: below)) (κ.isOpaqueDir (above ++ l' :: below)) path
        above.length l' ∧
      (∀ r, κ.resolve path ⟨u, above ++ l' :: below⟩ = .ok (some r) →
        r = .lower above.length l') ∧
      ∀ r, LayerFS.resolve path ⟨u, above ++ l :: below⟩ = .ok (some r) →
        r = .lower above.length l ∨ existsAt l path = .ok false) ∨
    Passes (κ.whiteoutNames (above ++ l' :: below)) (κ.isOpaqueDir (above ++ l' :: below)) path
        above.length l' ∧
      (∀ r, LayerFS.resolve path ⟨u, above ++ l :: below⟩ = .ok (some r) →
        r = .lower above.length l) ∧
      κ.resolve path ⟨u, above ++ l' :: below⟩ = resolveLower path (above.length + 1) below ∧
      LayerFS.resolve path ⟨u, above ++ below⟩ = resolveLower path above.length below := by
  have hlive : ∀ lower : List ℓ, Caches.empty.whiteoutNames lower = liveWhiteouts lower ∧
      Caches.empty.isOpaqueDir lower = liveOpaque lower := fun _ => ⟨rfl, rfl⟩
  rw [← Caches.resolve_empty, ← Caches.resolve_empty]
  obtain ⟨answer, hanswer, hupper⟩ | hupper := Caches.resolve_upper (ℓ := ℓ) path u
  · -- the upper layer answers
    rw [hupper, hupper]
    exact Or.inl ⟨rfl, fun m => hanswer _ m⟩
  rw [hupper, hupper, hupper, (hlive _).1, (hlive _).2, (hlive _).1, (hlive _).2]
  obtain ⟨hnames, hopq⟩ := h.agreeOn l 0 (0 + above.length) (Or.inl (by omega))
  have hself : ∀ {α : Type} (f : Nat × Path → α), AgreeOn 0 (0 + above.length) f f :=
    fun _ _ _ _ _ => rfl
  obtain ⟨answer, hfound, habove⟩ | habove := resolveWith_append
    (liveWhiteouts (above ++ l :: below)) (liveOpaque (above ++ l :: below)) path 0 above
  · -- a layer above the replaced one answers
    rw [habove _ _ _ hnames hopq, habove _ _ _ (hself _) (hself _)]
    refine Or.inl ⟨rfl, fun m hm => ?_⟩
    have hlt := hfound _ m hm
    omega
  -- the layers above let the path pass, in each of the three overlays
  have hwithout : resolveWith (liveWhiteouts (above ++ below)) (liveOpaque (above ++ below)) path 0
      (above ++ below) = resolveLower path above.length below := by
    have hlayer : ∀ j, j < 0 + above.length → (above ++ below)[j]? = (above ++ l :: below)[j]? :=
      fun j hj => by rw [List.getElem?_append_left (by omega), List.getElem?_append_left (by omega)]
    rw [habove, Nat.zero_add, resolveWith_live]
    · intro j dir _ hj
      rw [liveWhiteouts, liveWhiteouts, hlayer j hj]
    · intro j dir _ hj
      rw [liveOpaque, liveOpaque, hlayer j hj]
  have hbelow := resolveWith_live_below path above l below
  rw [habove _ _ _ hnames hopq, habove _ _ _ (hself _) (hself _), hwithout, Nat.zero_add]
  by_cases hpass' : Passes (κ.whiteoutNames (above ++ l' :: below))
      (κ.isOpaqueDir (above ++ l' :: below)) path above.length l'
  · obtain ⟨hnames', hopq'⟩ := h.agreeOn l (above.length + 1)
      (above.length + 1 + below.length) (Or.inr (by omega))
    rw [hpass'.resolveWith, resolveWith_congr below hnames' hopq', hbelow]
    obtain ⟨answer, hfound, hanswer⟩ | hpass := resolveWith_cons
      (liveWhiteouts (above ++ l :: below)) (liveOpaque (above ++ l :: below)) path above.length l
    · rw [hanswer _ _ _ (fun _ _ _ _ => rfl) fun _ _ _ _ => rfl]
      exact Or.inr (Or.inr ⟨hpass', hfound, rfl, rfl⟩)
    · rw [hpass.resolveWith, hbelow]
      refine Or.inl ⟨rfl, fun m hm => ?_⟩
      obtain ⟨above', m', below', -, hr, -⟩ := resolveLower_eq_some hm
      have hindex := (Resolved.lower.inj hr).1
      omega
  · refine Or.inr (Or.inl ⟨hpass', ?_, ?_⟩)
    · obtain ⟨answer, hfound, hanswer⟩ | hpass := resolveWith_cons
        (κ.whiteoutNames (above ++ l' :: below)) (κ.isOpaqueDir (above ++ l' :: below)) path
        above.length l'
      · rw [hanswer _ _ _ (fun _ _ _ _ => rfl) fun _ _ _ _ => rfl]
        exact hfound
      · exact absurd hpass hpass'
    · obtain ⟨answer, hfound, hanswer⟩ | hpass := resolveWith_cons
        (liveWhiteouts (above ++ l :: below)) (liveOpaque (above ++ l :: below)) path above.length l
      · rw [hanswer _ _ _ (fun _ _ _ _ => rfl) fun _ _ _ _ => rfl]
        exact fun r hr => Or.inl (hfound r hr)
      · exact fun _ _ => Or.inr hpass.missing

/-- Reading through the lower layers does not depend on how they are numbered. -/
theorem contentAt_resolveLower {c : Bytes} (i j : Nat) (layers lower lower' : List ℓ) (u : υ) :
    (∃ r, resolveLower path i layers = .ok (some r) ∧ r.contentAt path ⟨u, lower⟩ = .ok c) →
      ∃ r, resolveLower path j layers = .ok (some r) ∧ r.contentAt path ⟨u, lower'⟩ = .ok c := by
  induction layers generalizing i j with
  | nil =>
    rintro ⟨r, ⟨⟩, -⟩
  | cons l layers ih =>
    rintro ⟨r, hr, hc⟩
    rw [resolveLower_cons] at hr ⊢
    obtain ⟨mark, hmark, hr⟩ := except_bind_eq_ok.mp hr
    rw [hmark, ok_bind]
    obtain rfl | rfl := mark.eq_false_or_eq_true
    · cases hr
    obtain ⟨there, hthere, hr⟩ := except_bind_eq_ok.mp hr
    rw [if_neg Bool.false_ne_true, hthere]
    obtain rfl | rfl := there.eq_false_or_eq_true
    · obtain rfl := Option.some.inj (Except.ok.inj hr)
      exact ⟨_, rfl, hc⟩
    obtain ⟨hidden, hhidden, hr⟩ := except_bind_eq_ok.mp hr
    rw [ok_bind, if_neg Bool.false_ne_true, hhidden]
    obtain rfl | rfl := hidden.eq_false_or_eq_true
    · cases hr
    exact ih (i + 1) (j + 1) ⟨r, hr, hc⟩

end Rspacefs
