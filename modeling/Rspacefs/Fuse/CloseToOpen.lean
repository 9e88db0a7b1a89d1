import Rspacefs.Fuse.BufferedMount

/-!
# Write buffers and a plain filesystem

As long as a file is written by one handle at a time, and looked at when it is synced, buffers make
no difference: each request that the plain filesystem serves is served with the same reply over
buffers. Behind it the tree is the plain one, up to the files that have a buffer to flush, and the
handles hold what is in the plain files.

## Main definitions

* `PlainMount.Sound` — what a plain mount keeps along such a run
* `BufferedMount.Stands` — the buffered mount stands for the plain one

## Main results

* `BufferedMount.Stands.step` — one request
-/

namespace Rspacefs

open Lib

/-! ### Renaming -/

section Renaming

variable {F : Plain} {t : Interned Path} {s p : Path} {c : Bytes}

theorem moved_eq (q : Path) : F.moved s p q = (cameFrom s p q).bind F := by
  unfold Plain.moved cameFrom
  split
  · rfl
  · split <;> rfl

/-- A file that is moved has nothing below it. -/
theorem moved_file (hF : F.Wf) (hs : F s = some (.file c)) (hp : F p = none) :
    F.moved s p = Function.update (Function.update F p (some (.file c))) s none := by
  have hbelow : ∀ {a r : Path}, F a ≠ some .dir → r ≠ [] → F (a ++ r) = none := fun ha hr =>
    hF.eq_none_below (List.prefix_append _ _) (by simp [hr]) ha
  have hsp : p ≠ s := by
    rintro rfl
    rw [hp] at hs
    cases hs
  funext q
  by_cases hqs : q = s
  · subst hqs
    rw [Function.update_self, Plain.moved, if_pos (List.prefix_refl q), ite_eq_right_iff]
    rintro ⟨r, rfl⟩
    -- nothing is below the destination either
    by_cases hr : r = []
    · exact absurd (by simp [hr]) hsp
    · rw [hbelow (by simp [hp]) hr] at hs
      cases hs
  · rw [Function.update_of_ne hqs, Plain.moved]
    by_cases hpq : p <+: q
    · obtain ⟨r, rfl⟩ := hpq
      rw [if_pos (List.prefix_append p r), List.drop_left]
      by_cases hr : r = []
      · simp [hr, hs]
      · rw [hbelow (by simp [hs]) hr, Function.update_of_ne (by simp [hr]),
          hbelow (by simp [hp]) hr]
    · have hqp : q ≠ p := fun heq => hpq (heq ▸ List.prefix_refl p)
      rw [if_neg hpq, Function.update_of_ne hqp, ite_eq_right_iff]
      rintro ⟨r, rfl⟩
      exact (hbelow (by simp [hs]) fun hr => hqs (by simp [hr])).symm

theorem number_renamed (hbare : ∀ r, r ≠ [] → t.number (s ++ r) = none)
    (hfree : ∀ r, t.number (p ++ r) = none) : (t.renamed s p).number = (t.rebind s p).number := by
  have hp : t.number p = none := by simpa using hfree []
  funext q
  rw [Interned.number_rebind_of_free hp]
  change (cameFrom s p q).bind t.number = _
  by_cases hpq : p <+: q
  · obtain ⟨r, rfl⟩ := hpq
    by_cases hr : r = []
    · simp [hr, cameFrom]
    · rw [cameFrom_below, if_neg (by simp [hr])]
      simp [hbare r hr, hfree r]
  · have hqp : q ≠ p := fun heq => hpq (heq ▸ List.prefix_refl p)
    rw [if_neg hqp, cameFrom, if_neg hpq]
    by_cases hsq : s <+: q
    · obtain ⟨r, rfl⟩ := hsq
      rw [if_pos (List.prefix_append s r)]
      by_cases hr : r = []
      · simp [hr]
      · simp [hr, hbare r hr]
    · have hqs : q ≠ s := by
        rintro rfl
        exact hsq (List.prefix_refl q)
      rw [if_neg hsq, if_neg hqs]
      rfl

theorem key_renamed (ht : t.Inverse) (hbare : ∀ r, r ≠ [] → t.number (s ++ r) = none)
    (hfree : ∀ r, t.number (p ++ r) = none) : (t.renamed s p).key = (t.rebind s p).key := by
  funext i
  rw [Interned.key_rebind]
  change (t.key i).bind (goesTo s p) = _
  cases hi : t.key i with
  | none =>
    rw [if_neg fun hs => by simp [(ht.inverse i s).mpr hs] at hi]
    rfl
  | some q =>
    have hq := (ht.inverse i q).mp hi
    change goesTo s p q = _
    by_cases hqs : q = s
    · subst hqs
      simp [goesTo, hq]
    · have hs : t.number s ≠ some i := fun hs =>
        hqs (Option.some.inj (hi.symm.trans ((ht.inverse i s).mpr hs)))
      -- a path with a number is not below the source or the destination
      rw [if_neg hs, goesTo, if_neg, if_neg]
      · rintro ⟨r, rfl⟩
        rw [hfree r] at hq
        cases hq
      · rintro ⟨r, rfl⟩
        rw [hbare r fun hr => hqs (by simp [hr])] at hq
        cases hq

/-- Without numbers below the source and the destination, one number moves. -/
theorem renamed_eq_rebind (ht : t.Inverse) (hbare : ∀ r, r ≠ [] → t.number (s ++ r) = none)
    (hfree : ∀ r, t.number (p ++ r) = none) : t.renamed s p = t.rebind s p := by
  have hnumber := number_renamed hbare hfree
  have hkey := key_renamed ht hbare hfree
  have hnext : (t.renamed s p).next = (t.rebind s p).next := by
    rw [Interned.next_rebind]
    rfl
  cases hr : t.renamed s p
  cases hr' : t.rebind s p
  simp_all

end Renaming

namespace PlainMount

variable {m : PlainMount} {p q : Path} {id : FileId} {fh : Fh} {writable : Bool}

/-- A name leads to the file, or a handle. -/
def Used (m : PlainMount) (id : FileId) : Prop :=
  (∃ p, m.tree p = some (.file id)) ∨ ∃ fh writable, m.handles fh = some (id, writable)

/-- Storing what is there. -/
theorem store_self (m : PlainMount) (id : FileId) : m.store id (m.content id) = m := by
  rw [store, Function.update_eq_self]

theorem synced_self (hsync : id ∉ m.unsynced) : m.synced id = m := by
  rw [synced, Set.sdiff_singleton_eq_self hsync]

/-- What a plain mount keeps. -/
structure Sound (m : PlainMount) : Prop where
  inverse : m.names.Inverse
  numbered : ∀ p, m.names.number p ≠ none → m.tree p ≠ none
  inj : ∀ p q id, m.tree p = some (.file id) → m.tree q = some (.file id) → p = q
  given : ∀ fh, m.handles fh ≠ none → fh < m.nextFh
  issued : ∀ fh, m.Used (.made fh) → fh < m.nextFh
  /-- Where there is something to sync, there is one handle on the file. -/
  alone : ∀ id ∈ m.unsynced, ∃ fh, m.handles fh = some (id, true) ∧
    ∀ fh' writable, m.handles fh' = some (id, writable) → fh' = fh

/-- A handle number is used up. -/
@[simps]
def allocated (m : PlainMount) : PlainMount := { m with nextFh := m.nextFh + 1 }

/-- A handle leads to a file. -/
@[simps]
def holding (m : PlainMount) (fh : Fh) (id : FileId) (writable : Bool) : PlainMount :=
  { m with handles := Function.update m.handles fh (some (id, writable)) }

theorem Sound.allocated (hm : m.Sound) : m.allocated.Sound := { hm with
  given := fun fh hfh => Nat.lt_succ_of_lt (hm.given fh hfh)
  issued := fun fh hused => Nat.lt_succ_of_lt (hm.issued fh hused) }

/-- Every handle but the new one was there. -/
theorem handles_holding {fh' : Fh} {h : FileId × Bool}
    (hfh : (m.holding fh id writable).handles fh' = some h) :
    fh' = fh ∧ h = (id, writable) ∨ fh' ≠ fh ∧ m.handles fh' = some h := by
  by_cases hnew : fh' = fh
  · subst hnew
    refine Or.inl ⟨rfl, ?_⟩
    simpa [holding, eq_comm] using hfh
  · refine Or.inr ⟨hnew, ?_⟩
    simpa [holding, Function.update_of_ne hnew] using hfh

theorem Sound.holding (hm : m.Sound) (hnew : m.handles fh = none) (hfh : fh < m.nextFh)
    (hsync : id ∉ m.unsynced) (hused : m.Used id) : (m.holding fh id writable).Sound := { hm with
  given := fun fh' hfh' => by
    obtain ⟨h, hfh'⟩ := Option.ne_none_iff_exists'.mp hfh'
    obtain ⟨rfl, -⟩ | ⟨-, hold⟩ := handles_holding hfh'
    · exact hfh
    · exact hm.given fh' (by simp [hold])
  issued := by
    rintro n (htree | ⟨fh', writable', hfh'⟩)
    · exact hm.issued n (Or.inl htree)
    · obtain ⟨-, heq⟩ | ⟨-, hold⟩ := handles_holding hfh'
      · obtain ⟨rfl, rfl⟩ := Prod.mk.inj heq
        exact hm.issued n hused
      · exact hm.issued n (Or.inr ⟨fh', writable', hold⟩)
  alone := fun id' hid' => by
    obtain ⟨fh₀, hfh₀, honly⟩ := hm.alone id' hid'
    have hold : fh₀ ≠ fh := by
      rintro rfl
      rw [hnew] at hfh₀
      cases hfh₀
    refine ⟨fh₀, (Function.update_of_ne hold _ _).trans hfh₀, fun fh' writable' hfh' => ?_⟩
    obtain ⟨-, heq⟩ | ⟨-, hthere⟩ := handles_holding hfh'
    · obtain ⟨rfl, -⟩ := Prod.mk.inj heq
      exact absurd hid' hsync
    · exact honly fh' writable' hthere }

theorem Sound.closed (hm : m.Sound)
    (hsync : ∀ id writable, m.handles fh = some (id, writable) → id ∉ m.unsynced) :
    (m.closed fh).Sound := by
  -- the handles that are left were there
  have hleft : ∀ {fh' h}, (m.closed fh).handles fh' = some h → fh' ≠ fh ∧ m.handles fh' = some h := by
    intro fh' h hfh'
    by_cases hfh : fh' = fh
    · subst hfh
      simp [PlainMount.closed] at hfh'
    · exact ⟨hfh, by simpa [PlainMount.closed, Function.update_of_ne hfh] using hfh'⟩
  exact { hm with
    given := fun fh' hfh' => by
      obtain ⟨h, hfh'⟩ := Option.ne_none_iff_exists'.mp hfh'
      exact hm.given fh' (by simp [(hleft hfh').2])
    issued := by
      rintro n (htree | ⟨fh', writable', hfh'⟩)
      · exact hm.issued n (Or.inl htree)
      · exact hm.issued n (Or.inr ⟨fh', writable', (hleft hfh').2⟩)
    alone := fun id hid => by
      obtain ⟨fh₀, hfh₀, honly⟩ := hm.alone id hid
      have hne : fh₀ ≠ fh := by
        rintro rfl
        exact hsync id true hfh₀ hid
      exact ⟨fh₀, (Function.update_of_ne hne _ _).trans hfh₀,
        fun fh' writable' hfh' => honly fh' writable' (hleft hfh').2⟩ }

/-- A new entry, under which a file is a new one. -/
theorem Sound.put {e : Entry} (hm : m.Sound) (hfree : m.tree p = none)
    (hnew : ∀ id, e = .file id → ¬ m.Used id ∧ ∀ fh, id = .made fh → fh < m.nextFh) :
    (m.put p e).Sound := by
  -- a file is at `p`, where it is a new one, or it was there before
  have hentry : ∀ {q id}, (m.put p e).tree q = some (.file id) →
      q = p ∧ e = .file id ∨ q ≠ p ∧ m.tree q = some (.file id) := by
    intro q id hq
    by_cases hqp : q = p
    · subst hqp
      exact Or.inl ⟨rfl, by simpa [PlainMount.put] using hq⟩
    · exact Or.inr ⟨hqp, by simpa [PlainMount.put, Function.update_of_ne hqp] using hq⟩
  exact { hm with
    numbered := fun q hq => by
      by_cases hqp : q = p
      · subst hqp
        simp [PlainMount.put]
      · simpa [PlainMount.put, Function.update_of_ne hqp] using hm.numbered q hq
    inj := fun q q' id hq hq' => by
      obtain ⟨rfl, he⟩ | ⟨-, hold⟩ := hentry hq <;> obtain ⟨rfl, he'⟩ | ⟨-, hold'⟩ := hentry hq'
      · rfl
      · exact absurd (Or.inl ⟨_, hold'⟩) (hnew id he).1
      · exact absurd (Or.inl ⟨_, hold⟩) (hnew id he').1
      · exact hm.inj q q' id hold hold'
    issued := by
      rintro n (⟨q, hq⟩ | hhandle)
      · obtain ⟨-, he⟩ | ⟨-, hold⟩ := hentry hq
        · exact (hnew _ he).2 n rfl
        · exact hm.issued n (Or.inl ⟨q, hold⟩)
      · exact hm.issued n (Or.inr hhandle) }

theorem Sound.drop (hm : m.Sound) (p : Path) : (m.drop p).Sound := by
  have hleft : ∀ {q e}, (m.drop p).tree q = some e → m.tree q = some e := by
    intro q e hq
    by_cases hqp : q = p
    · subst hqp
      simp [PlainMount.drop] at hq
    · simpa [PlainMount.drop, Function.update_of_ne hqp] using hq
  exact { hm with
    inverse := hm.inverse.unbind p
    numbered := fun q hq => by
      obtain ⟨hqp, hq⟩ := Interned.number_unbind_ne_none hq
      simpa [PlainMount.drop, Function.update_of_ne hqp] using hm.numbered q hq
    inj := fun q q' id hq hq' => hm.inj q q' id (hleft hq) (hleft hq')
    issued := by
      rintro n (⟨q, hq⟩ | hhandle)
      · exact hm.issued n (Or.inl ⟨q, hleft hq⟩)
      · exact hm.issued n (Or.inr hhandle) }

end PlainMount

namespace BufferedMount

/-- What the tree behind buffers shows of an entry. -/
inductive Shows (content : FileId → Bytes) (unsynced : Set FileId) :
    Option Node → Option Entry → Prop
  | absent : Shows content unsynced none none
  | dir : Shows content unsynced (some .dir) (some .dir)
  | file {id : FileId} {c : Bytes} (hc : id ∉ unsynced → c = content id) :
      Shows content unsynced (some (.file c)) (some (.file id))

/-- What the daemon keeps of a handle. -/
inductive Keeping (content : FileId → Bytes) (unsynced : Set FileId) (tree : Path → Option Entry) :
    Option OpenFile → Option (FileId × Bool) → Prop
  | closed : Keeping content unsynced tree none none
  | reader {id : FileId} : Keeping content unsynced tree (some (.streaming ⟨.ok (content id)⟩))
      (some (id, false))
  | writer {id : FileId} {p : Path} {dirty : Bool} (hp : tree p = some (.file id))
      (hdirty : dirty = true ↔ id ∈ unsynced) :
      Keeping content unsynced tree (some (.buffered p (content id) dirty true)) (some (id, true))

/-- The buffered mount stands for the plain one. -/
structure Stands (b : BufferedMount) (m : PlainMount) : Prop where
  names : b.names = m.names
  nextFh : b.nextFh = m.nextFh
  tree : ∀ p, Shows m.content m.unsynced (b.tree p) (m.tree p)
  files : ∀ fh, Keeping m.content m.unsynced m.tree (b.openFiles fh) (m.handles fh)
  sound : m.Sound

variable {b b' : BufferedMount} {m m' : PlainMount} {p q s : Path} {id : FileId} {fh : Fh}
  {writable : Bool} {c a : Bytes} {node : Node} {e : Entry} {n : Option Node} {x : Option Entry}
  {content content' : FileId → Bytes} {unsynced unsynced' : Set FileId}
  {tree tree' : Path → Option Entry} {f : Option OpenFile} {h : Option (FileId × Bool)}

/-! ### Entries and handles -/

theorem Shows.eq_none_iff (hx : Shows content unsynced n x) : n = none ↔ x = none := by
  cases hx <;> simp

theorem Shows.eq_dir_iff (hx : Shows content unsynced n x) : n = some .dir ↔ x = some .dir := by
  cases hx <;> simp

theorem Shows.of_file (hx : Shows content unsynced n (some (.file id))) :
    ∃ c, n = some (.file c) ∧ (id ∉ unsynced → c = content id) := by
  cases hx with
  | file hc => exact ⟨_, rfl, hc⟩

/-- Other contents, where they are synced. -/
theorem Shows.mono (hx : Shows content unsynced n x)
    (heq : ∀ id, x = some (.file id) → id ∉ unsynced' → id ∉ unsynced ∧ content' id = content id) :
    Shows content' unsynced' n x := by
  cases hx with
  | absent => exact .absent
  | dir => exact .dir
  | @file id c hc =>
    refine .file fun hid => ?_
    obtain ⟨hsync, hsame⟩ := heq id rfl hid
    rw [hc hsync, hsame]

/-- A tree in which the path of the handle leads to the file still. -/
theorem Keeping.of_tree (hh : Keeping content unsynced tree f h)
    (htree : ∀ p id, h = some (id, true) → tree p = some (.file id) → tree' p = some (.file id)) :
    Keeping content unsynced tree' f h := by
  cases hh with
  | closed => exact .closed
  | reader => exact .reader
  | writer hp hdirty => exact .writer (htree _ _ rfl hp) hdirty

/-- Other contents of other files. -/
theorem Keeping.of_content (hh : Keeping content unsynced tree f h)
    (hcontent : ∀ id writable, h = some (id, writable) → content' id = content id)
    (hsync : ∀ id writable, h = some (id, writable) → (id ∈ unsynced' ↔ id ∈ unsynced)) :
    Keeping content' unsynced' tree f h := by
  cases hh with
  | closed => exact .closed
  | @reader id =>
    rw [← hcontent id false rfl]
    exact .reader
  | @writer id p dirty hp hdirty =>
    rw [← hcontent id true rfl]
    exact .writer hp (hdirty.trans (hsync id true rfl).symm)

/-- No number stands for what is below a directory that is renamed. -/
def Bare (b : BufferedMount) : Request → Prop
  | .rename parent name newparent newname => ∀ s p, b.names.Child parent name s →
    b.names.Child newparent newname p → b.tree s = some .dir →
      ∀ r, r ≠ [] → b.names.number (s ++ r) = none
  | _ => True

namespace Stands

variable (hs : Stands b m)
include hs

theorem eq_none_iff : b.tree p = none ↔ m.tree p = none := (hs.tree p).eq_none_iff

theorem eq_dir_iff : b.tree p = some .dir ↔ m.tree p = some .dir := (hs.tree p).eq_dir_iff

theorem file (hfile : m.tree p = some (.file id)) :
    ∃ c, b.tree p = some (.file c) ∧ (id ∉ m.unsynced → c = m.content id) :=
  Shows.of_file (hfile ▸ hs.tree p)

/-- Synced entries are shown as they are. -/
theorem view_eq (hp : m.Synced p) : b.tree p = m.view p := by
  unfold PlainMount.Synced at hp
  unfold PlainMount.view
  cases hentry : m.tree p with
  | none => exact hs.eq_none_iff.mpr hentry
  | some e =>
    cases e with
    | dir => exact hs.eq_dir_iff.mpr hentry
    | file id =>
      obtain ⟨c, hc, hcontent⟩ := hs.file hentry
      rw [hc, hcontent (hp id hentry)]
      rfl

theorem kind_eq : b.tree.kind = m.view.kind := by
  funext p
  unfold Plain.kind PlainMount.view
  have hshows := hs.tree p
  revert hshows
  cases b.tree p with
  | none =>
    cases m.tree p with
    | none => exact fun _ => rfl
    | some e => exact nofun
  | some node =>
    cases m.tree p with
    | none => exact nofun
    | some e =>
      intro h
      cases h <;> rfl

/-! ### Numbers -/

theorem numbered (hp : m.tree p ≠ none) : Stands (b.numbered p) (m.numbered p) where
  names := congrArg (·.intern p) hs.names
  nextFh := hs.nextFh
  tree := hs.tree
  files := hs.files
  sound := { hs.sound with
    inverse := hs.sound.inverse.intern p
    numbered := fun q hq => by
      obtain rfl | hq := Interned.number_intern_ne_none hq
      · exact hp
      · exact hs.sound.numbered q hq }

theorem internAll {d : Path} {ns : List Name} (hall : ∀ n ∈ ns, m.tree (d ++ [n]) ≠ none) :
    Stands { b with names := b.names.internAll d ns }
      { m with names := m.names.internAll d ns } := by
  induction ns generalizing b m with
  | nil => exact hs
  | cons n ns ih =>
    obtain ⟨hn, hall⟩ := List.forall_mem_cons.mp hall
    exact ih (hs.numbered hn) hall

/-! ### Handles -/

theorem allocated : Stands { b with nextFh := m.nextFh + 1 } m.allocated :=
  { hs with
    nextFh := rfl
    sound := hs.sound.allocated }

/-- A handle on a synced file. -/
theorem holding {f : OpenFile} (hnew : m.handles fh = none) (hfh : fh < m.nextFh)
    (hsync : id ∉ m.unsynced) (hused : m.Used id)
    (hfile : Keeping m.content m.unsynced m.tree (some f) (some (id, writable))) :
    Stands (b.withFile fh (some f)) (m.holding fh id writable) :=
  { hs with
    files := fun fh' => by
      by_cases hfh' : fh' = fh
      · subst hfh'
        simpa [withFile, PlainMount.holding] using hfile
      · simpa [withFile, PlainMount.holding, Function.update_of_ne hfh'] using hs.files fh'
    sound := hs.sound.holding hnew hfh hsync hused }

theorem free_next : m.handles m.nextFh = none := by
  by_contra hfh
  exact Nat.lt_irrefl _ (hs.sound.given _ hfh)

omit hs in
/-- The handle that is given out is the same. -/
theorem of_next {f : OpenFile} (hnext : b.nextFh = m.nextFh)
    (h : Stands (withFile { b with nextFh := m.nextFh + 1 } m.nextFh (some f))
      (m.opened id writable)) : Stands (b.opened f) (m.opened id writable) := by
  unfold BufferedMount.opened
  rw [hnext]
  exact h

/-- Opening a synced file. -/
theorem opened {f : OpenFile} (hsync : id ∉ m.unsynced) (hused : m.Used id)
    (hfile : Keeping m.content m.unsynced m.tree (some f) (some (id, writable))) :
    Stands (b.opened f) (m.opened id writable) :=
  of_next hs.nextFh (hs.allocated.holding hs.free_next (Nat.lt_succ_self _) hsync hused hfile)

/-- A handle goes that has nothing to sync. -/
theorem closed (hsync : ∀ id writable, m.handles fh = some (id, writable) → id ∉ m.unsynced) :
    Stands (b.withFile fh none) (m.closed fh) :=
  { hs with
    files := fun fh' => by
      by_cases hfh' : fh' = fh
      · subst hfh'
        simpa [withFile, PlainMount.closed] using Keeping.closed
      · simpa [withFile, PlainMount.closed, Function.update_of_ne hfh'] using hs.files fh'
    sound := hs.sound.closed hsync }

/-! ### Entries -/

/-- A directory where there was nothing. -/
theorem putDir (hfree : m.tree p = none) : Stands (b.put p .dir) (m.put p .dir) :=
  { hs with
    tree := fun q => by
      by_cases hq : q = p
      · subst hq
        simpa [put, PlainMount.put] using Shows.dir
      · simpa [put, PlainMount.put, Function.update_of_ne hq] using hs.tree q
    files := fun fh => (hs.files fh).of_tree fun q id _ hq => by
      have hne : q ≠ p := by
        rintro rfl
        rw [hfree] at hq
        cases hq
      exact (Function.update_of_ne hne _ _).trans hq
    sound := hs.sound.put hfree nofun }

/-- A new file where there was nothing. -/
theorem putFile (hfree : m.tree p = none) (hunused : ¬ m.Used id)
    (hgiven : ∀ fh, id = .made fh → fh < m.nextFh) (hc : c = m.content id) :
    Stands (b.put p (.file c)) (m.put p (.file id)) :=
  { hs with
    tree := fun q => by
      by_cases hq : q = p
      · subst hq
        simpa [put, PlainMount.put] using Shows.file fun _ => hc
      · simpa [put, PlainMount.put, Function.update_of_ne hq] using hs.tree q
    files := fun fh => (hs.files fh).of_tree fun q id' _ hq => by
      have hne : q ≠ p := by
        rintro rfl
        rw [hfree] at hq
        cases hq
      exact (Function.update_of_ne hne _ _).trans hq
    sound := hs.sound.put hfree fun id' he => by
      cases he
      exact ⟨hunused, hgiven⟩ }

/-- The content of no file at all. -/
theorem storeUnused (hunused : ¬ m.Used id) (c : Bytes) : Stands b (m.store id c) := by
  have hne : ∀ {id'}, m.Used id' → (m.store id c).content id' = m.content id' := fun hused =>
    Function.update_of_ne (fun heq => hunused (by rwa [← heq])) _ _
  exact { hs with
    tree := fun q => (hs.tree q).mono fun id' hq hsync => ⟨hsync, hne (Or.inl ⟨q, hq⟩)⟩
    files := fun fh => (hs.files fh).of_content (fun id' w hfh => hne (Or.inr ⟨fh, w, hfh⟩))
      fun _ _ _ => Iff.rfl
    sound := { hs.sound with } }

/-- A file that is not open is written past the handles. -/
theorem storeUnopened (hfile : m.tree p = some (.file id))
    (hclosed : ∀ fh writable, m.handles fh ≠ some (id, writable)) (c : Bytes) :
    Stands (b.put p (.file c)) (m.store id c) :=
  { hs with
    tree := fun q => by
      by_cases hq : q = p
      · subst hq
        simpa [hfile] using Shows.file fun _ => by simp
      · have hshows : Shows (m.store id c).content m.unsynced (b.tree q) (m.tree q) :=
          (hs.tree q).mono fun id' hid' hsync => by
            refine ⟨hsync, Function.update_of_ne ?_ _ _⟩
            rintro rfl
            exact hq (hs.sound.inj _ _ _ hid' hfile)
        simpa [Function.update_of_ne hq] using hshows
    files := fun fh => (hs.files fh).of_content (fun id' w hfh => by
      refine Function.update_of_ne ?_ _ _
      rintro rfl
      exact hclosed fh w hfh) fun _ _ _ => Iff.rfl
    sound := { hs.sound with } }

/-- A name goes that no handle writes to. -/
theorem drop (hunwritten : ∀ id, m.tree p = some (.file id) → ∀ fh, m.handles fh ≠ some (id, true)) :
    Stands (b.drop p) (m.drop p) :=
  { hs with
    names := congrArg (·.unbind p) hs.names
    tree := fun q => by
      by_cases hq : q = p
      · subst hq
        simpa [BufferedMount.drop, PlainMount.drop] using Shows.absent
      · simpa [BufferedMount.drop, PlainMount.drop, Function.update_of_ne hq] using hs.tree q
    files := fun fh => (hs.files fh).of_tree fun q id hfh hq => by
      have hne : q ≠ p := by
        rintro rfl
        exact hunwritten id hq fh hfh
      exact (Function.update_of_ne hne _ _).trans hq
    sound := hs.sound.drop p }

/-! ### Writing and syncing -/

/-- What a handle on a file holds that can be written. -/
theorem openFile (hfh : m.handles fh = some (id, true)) :
    ∃ p dirty, b.openFiles fh = some (.buffered p (m.content id) dirty true) ∧
      m.tree p = some (.file id) ∧ (dirty = true ↔ id ∈ m.unsynced) := by
  have hkept := hs.files fh
  rw [hfh] at hkept
  generalize b.openFiles fh = f at hkept
  cases hkept with
  | writer hp hdirty => exact ⟨_, _, rfl, hp, hdirty⟩

theorem reader (hfh : m.handles fh = some (id, false)) :
    b.openFiles fh = some (.streaming ⟨.ok (m.content id)⟩) := by
  have hkept := hs.files fh
  rw [hfh] at hkept
  generalize b.openFiles fh = f at hkept
  cases hkept with
  | reader => rfl

theorem write (hfh : m.handles fh = some (id, true)) (hp : m.tree p = some (.file id))
    (honly : ∀ fh' writable, m.handles fh' = some (id, writable) → fh' = fh) (c : Bytes) :
    Stands (b.withFile fh (some (.buffered p c true true))) ((m.store id c).wrote id) :=
  { hs with
    tree := fun q => (hs.tree q).mono fun id' hid' hsync => by
      have hne : id' ≠ id := fun heq => hsync (Set.mem_insert_iff.mpr (Or.inl heq))
      exact ⟨fun hmem => hsync (Set.mem_insert_of_mem _ hmem), Function.update_of_ne hne _ _⟩
    files := fun fh' => by
      by_cases hfh' : fh' = fh
      · subst hfh'
        have hc : (m.store id c).content id = c := by simp
        have hkept : Keeping (m.store id c).content (insert id m.unsynced) m.tree
            (some (.buffered p ((m.store id c).content id) true true)) (some (id, true)) :=
          .writer hp (by simp)
        rw [hc] at hkept
        simpa [withFile, PlainMount.store, PlainMount.wrote, hfh] using hkept
      · have hne : ∀ {id' w}, m.handles fh' = some (id', w) → id' ≠ id := by
          rintro _ w hid' rfl
          exact hfh' (honly fh' w hid')
        have hkept : Keeping (m.store id c).content (insert id m.unsynced) m.tree
            (b.openFiles fh') (m.handles fh') :=
          (hs.files fh').of_content (fun _ _ hid' => Function.update_of_ne (hne hid') _ _)
            fun _ _ hid' => Set.mem_insert_iff.trans (or_iff_right (hne hid'))
        rw [withFile_openFiles, Function.update_of_ne hfh']
        exact hkept
    sound := { hs.sound with
      alone := fun id' hid' => by
        obtain rfl | hid' := Set.mem_insert_iff.mp hid'
        · exact ⟨fh, hfh, honly⟩
        · exact hs.sound.alone id' hid' } }

/-- The buffer of a handle goes to the tree. -/
theorem sync (hfh : m.handles fh = some (id, true)) (hp : m.tree p = some (.file id))
    (hdirty : id ∈ m.unsynced) :
    Stands ((b.put p (.file (m.content id))).withFile fh
      (some (.buffered p (m.content id) false true))) (m.synced id) := by
  -- no other handle is on a file with something to sync
  obtain ⟨fh₀, -, honly⟩ := hs.sound.alone id hdirty
  have hfh₀ := honly fh true hfh
  exact { hs with
    tree := fun q => by
      by_cases hq : q = p
      · subst hq
        simpa [put, withFile, hp, PlainMount.synced] using Shows.file fun _ => rfl
      · have hshows : Shows m.content (m.unsynced \ {id}) (b.tree q) (m.tree q) :=
          (hs.tree q).mono fun id' hid' hsync => by
            refine ⟨fun hmem => hsync ⟨hmem, ?_⟩, rfl⟩
            rintro rfl
            exact hq (hs.sound.inj _ _ _ hid' hp)
        rw [withFile_tree, put_tree, Function.update_of_ne hq]
        exact hshows
    files := fun fh' => by
      by_cases hfh' : fh' = fh
      · subst hfh'
        have hkept : Keeping m.content (m.unsynced \ {id}) m.tree
            (some (.buffered p (m.content id) false true)) (some (id, true)) := .writer hp (by simp)
        simpa [withFile, PlainMount.synced, hfh] using hkept
      · have hne : ∀ {id' w}, m.handles fh' = some (id', w) → id' ≠ id := by
          rintro _ w hid' rfl
          exact hfh' ((honly fh' w hid').trans hfh₀.symm)
        have hkept : Keeping m.content (m.unsynced \ {id}) m.tree (b.openFiles fh')
            (m.handles fh') :=
          (hs.files fh').of_content (fun _ _ _ => rfl)
            fun _ _ hid' => and_iff_left (hne hid')
        rw [withFile_openFiles, Function.update_of_ne hfh']
        exact hkept
    sound := { hs.sound with
      alone := fun id' hid' => hs.sound.alone id' hid'.1 } }

/-! ### Renaming -/

theorem files_apart (hwf : b.tree.Wf) (hfree : m.tree p = none) (q : Path) (hq : m.tree q ≠ none) :
    ¬ p <+: q := by
  intro hpq
  have hb : b.tree p = none := hs.eq_none_iff.mpr hfree
  have hne : p ≠ q := by
    rintro rfl
    exact hq hfree
  exact hq (hs.eq_none_iff.mp (hwf.eq_none_below hpq hne (by simp [hb])))

/-- Everything below `s` goes to a free place, where no number is below `s` and no handle writes. -/
theorem renamed (hwf : b.tree.Wf) (hfree : m.tree p = none) (hapart : ¬ s <+: p)
    (hunwritten : m.Unwritten s) (hbare : ∀ r, r ≠ [] → m.names.number (s ++ r) = none) :
    Stands { b with tree := b.tree.moved s p, names := b.names.rebind s p } (m.renamed s p) := by
  have hgone : ∀ r, m.names.number (p ++ r) = none := fun r => by
    by_contra hr
    exact hs.files_apart hwf hfree _ (hs.sound.numbered _ hr) (List.prefix_append p r)
  have hnames := renamed_eq_rebind hs.sound.inverse hbare hgone
  have hsp : s ≠ p := fun heq => hapart (heq ▸ List.prefix_refl s)
  -- every entry was somewhere before
  have hbefore : ∀ {q e}, (m.renamed s p).tree q = some e →
      ∃ a, cameFrom s p q = some a ∧ m.tree a = some e := fun hq => Option.bind_eq_some_iff.mp hq
  exact { hs with
    names := (congrArg (·.rebind s p) hs.names).trans hnames.symm
    tree := fun q => by
      change Shows _ _ (b.tree.moved s p q) ((cameFrom s p q).bind m.tree)
      rw [moved_eq]
      cases cameFrom s p q with
      | none => exact .absent
      | some a => exact hs.tree a
    files := fun fh => (hs.files fh).of_tree fun q id hfh hq => by
      have hsq : ¬ s <+: q := fun hsq => hunwritten q hsq id hq fh hfh
      have hpq := hs.files_apart hwf hfree q (by simp [hq])
      change (cameFrom s p q).bind m.tree = _
      rw [cameFrom_of_apart hpq hsq]
      exact hq
    sound := { hs.sound with
      inverse := by
        have hinverse := (hs.sound.inverse.rebind_iff hsp).mpr fun _ => by simpa using hgone []
        rwa [← hnames] at hinverse
      numbered := fun q hq => by
        obtain ⟨i, hi⟩ := Option.ne_none_iff_exists'.mp hq
        obtain ⟨a, ha, hnumber⟩ := Option.bind_eq_some_iff.mp hi
        change (cameFrom s p q).bind m.tree ≠ none
        rw [ha]
        exact hs.sound.numbered a (by simp [hnumber])
      inj := fun q q' id hq hq' => by
        obtain ⟨a, ha, hfile⟩ := hbefore hq
        obtain ⟨a', ha', hfile'⟩ := hbefore hq'
        obtain rfl := hs.sound.inj a a' id hfile hfile'
        exact cameFrom_inj ha ha'
      issued := by
        rintro n (⟨q, hq⟩ | hhandle)
        · obtain ⟨a, -, hfile⟩ := hbefore hq
          exact hs.sound.issued n (Or.inl ⟨a, hfile⟩)
        · exact hs.sound.issued n (Or.inr hhandle) } }

/-! ### Requests -/

/-- A handle that cannot write is not the one that has something to sync. -/
theorem synced_of_reader (hfh : m.handles fh = some (id, false)) : id ∉ m.unsynced := by
  intro hid
  obtain ⟨fh₀, hfh₀, honly⟩ := hs.sound.alone id hid
  rw [← honly fh false hfh, hfh] at hfh₀
  cases hfh₀

theorem synced_of_closed (hclosed : ∀ fh writable, m.handles fh ≠ some (id, writable)) :
    id ∉ m.unsynced := by
  intro hid
  obtain ⟨fh₀, hfh₀, -⟩ := hs.sound.alone id hid
  exact hclosed fh₀ true hfh₀

section Requests

variable {r : Request} {reply : Except Errno Reply} {ino parent newparent : Ino} {name newname : Name}
  {flags : OpenFlags} {backed : Bool}

theorem step_openInode (hp : m.names.key ino = some p) (hfile : m.tree p = some (.file id))
    (hsync : id ∉ m.unsynced) (hempty : flags.trunc = true → m.content id = []) :
    ∃ b', b.Step (.openInode ino flags backed) (.ok (.opened m.nextFh)) b' ∧
      Stands b' ((m.store id (flags.openedContent (m.content id))).opened id flags.writable) := by
  have hcontent : flags.openedContent (m.content id) = m.content id := by
    rw [OpenFlags.openedContent]
    split
    · rename_i htrunc
      exact (hempty htrunc).symm
    · rfl
  obtain ⟨c, hc, hshown⟩ := hs.file hfile
  obtain rfl := hshown hsync
  rw [hcontent, PlainMount.store_self, ← hs.nextFh]
  have hkey : b.names.key ino = some p := hs.names ▸ hp
  have hused : m.Used id := Or.inl ⟨p, hfile⟩
  cases hflags : flags.writable with
  | true =>
    refine ⟨_, .openWrite hkey hc hflags, hs.opened hsync hused ?_⟩
    rw [hcontent]
    exact .writer hfile (by simp [hsync])
  | false => exact ⟨_, .openRead hkey hc hflags, hs.opened hsync hused .reader⟩

theorem step_create (hp : m.names.Child parent name p) (hparent : m.tree p.dropLast = some .dir)
    (hfree : m.tree p = none) :
    ∃ b', b.Step (.create parent name flags)
        (.ok (.created (Node.attr (m.names.numberOf p) (.file [])) m.nextFh)) b' ∧
      Stands b' ((((m.store (.made m.nextFh) []).put p (.file (.made m.nextFh))).numbered p).opened
        (.made m.nextFh) true) := by
  have hunused : ¬ m.Used (.made m.nextFh) := fun hused =>
    Nat.lt_irrefl _ (hs.sound.issued _ hused)
  have hsync : FileId.made m.nextFh ∉ m.unsynced := by
    intro hid
    obtain ⟨fh, hfh, -⟩ := hs.sound.alone _ hid
    exact hunused (Or.inr ⟨fh, true, hfh⟩)
  -- the handle number is used up first: it tells the file from the others
  have hfile := (hs.storeUnused hunused []).allocated.putFile (c := []) hfree hunused
    (fun fh heq => (FileId.made.inj heq) ▸ Nat.lt_succ_self _) (by simp)
  have hnumbered := hfile.numbered (p := p) (by simp)
  have hkept : Keeping (m.store (.made m.nextFh) []).content m.unsynced
      (Function.update m.tree p (some (.file (.made m.nextFh))))
      (some (.buffered p ((m.store (.made m.nextFh) []).content (.made m.nextFh)) false true))
      (some (.made m.nextFh, true)) := .writer (by simp) (by simp [hsync])
  rw [PlainMount.store_content, Function.update_self] at hkept
  have hopened := hnumbered.holding hs.free_next (Nat.lt_succ_self _) hsync (Or.inl ⟨p, by simp⟩)
    hkept
  refine ⟨_, ?_, of_next (b := (b.put p (.file [])).numbered p) hs.nextFh hopened⟩
  rw [← hs.names, ← hs.nextFh]
  exact .create (hs.names ▸ hp) (hs.eq_dir_iff.mpr hparent) (hs.eq_none_iff.mpr hfree)

theorem step_createTrunc (hp : m.names.Child parent name p) (hfile : m.tree p = some (.file id))
    (hexcl : flags.excl = false) (htrunc : flags.trunc = true)
    (hclosed : ∀ fh writable, m.handles fh ≠ some (id, writable)) :
    ∃ b', b.Step (.create parent name flags)
        (.ok (.created (Node.attr (m.names.numberOf p) (.file [])) m.nextFh)) b' ∧
      Stands b' (((m.store id []).numbered p).opened id true) := by
  obtain ⟨c, hc, -⟩ := hs.file hfile
  have hsync : id ∉ m.unsynced := hs.synced_of_closed hclosed
  have hnumbered := (hs.storeUnopened hfile hclosed []).numbered (p := p) (by simp [hfile])
  have hkept : Keeping (m.store id []).content m.unsynced m.tree
      (some (.buffered p ((m.store id []).content id) false true)) (some (id, true)) :=
    .writer hfile (by simp [hsync])
  rw [PlainMount.store_content, Function.update_self] at hkept
  refine ⟨_, ?_, hnumbered.opened hsync (Or.inl ⟨p, hfile⟩) hkept⟩
  rw [← hs.names, ← hs.nextFh]
  exact .createTrunc (hs.names ▸ hp) hc htrunc hexcl

theorem step_createThere (hp : m.names.Child parent name p) (hfile : m.tree p = some (.file id))
    (hexcl : flags.excl = false) (htrunc : flags.trunc = false) (hsync : id ∉ m.unsynced)
    (hempty : m.content id = []) :
    ∃ b', b.Step (.create parent name flags)
        (.ok (.created (Node.attr (m.names.numberOf p) (.file [])) m.nextFh)) b' ∧
      Stands b' ((m.numbered p).opened id true) := by
  obtain ⟨c, hc, hshown⟩ := hs.file hfile
  rw [hshown hsync, hempty] at hc
  have hkept : Keeping m.content m.unsynced m.tree
      (some (.buffered p (m.content id) false true)) (some (id, true)) :=
    .writer hfile (by simp [hsync])
  rw [hempty] at hkept
  have hnumbered := hs.numbered (p := p) (by simp [hfile])
  refine ⟨_, ?_, hnumbered.opened hsync (Or.inl ⟨p, hfile⟩) hkept⟩
  rw [← hs.names, ← hs.nextFh]
  exact .createThere (hs.names ▸ hp) hc htrunc hexcl

theorem step_write (hfh : m.handles fh = some (id, true))
    (honly : ∀ fh' writable, m.handles fh' = some (id, writable) → fh' = fh) (offset : Nat)
    (data : Bytes) :
    ∃ b', b.Step (.write fh offset data) (.ok (.written data.length)) b' ∧
      Stands b' ((m.store id (splice (m.content id) offset data)).wrote id) := by
  obtain ⟨p, dirty, hopen, hp, -⟩ := hs.openFile hfh
  exact ⟨_, .write hopen, hs.write hfh hp honly _⟩

theorem step_fsync (hfh : m.handles fh = some (id, writable)) :
    ∃ b', b.Step (.fsync fh) (.ok .ok) b' ∧ Stands b' (m.synced id) := by
  cases writable with
  | false =>
    rw [PlainMount.synced_self (hs.synced_of_reader hfh)]
    exact ⟨b, .fsyncClean (hs.reader hfh) rfl, hs⟩
  | true =>
    obtain ⟨p, dirty, hopen, hp, hdirty⟩ := hs.openFile hfh
    cases dirty with
    | true =>
      obtain ⟨c, hc, -⟩ := hs.file hp
      exact ⟨_, .fsyncDirty hopen hc, hs.sync hfh hp (hdirty.mp rfl)⟩
    | false =>
      have hsync : id ∉ m.unsynced := fun hid => Bool.false_ne_true (hdirty.mpr hid)
      rw [PlainMount.synced_self hsync]
      exact ⟨b, .fsyncClean hopen rfl, hs⟩

theorem step_release (hfh : m.handles fh = some (id, writable)) :
    ∃ b', b.Step (.release fh) (.ok .ok) b' ∧ Stands b' ((m.synced id).closed fh) := by
  have hsync : ∀ id' writable', m.handles fh = some (id', writable') →
      id' ∉ (m.synced id).unsynced := by
    intro id' writable' hfh' hid'
    rw [hfh] at hfh'
    obtain ⟨rfl, -⟩ := Prod.mk.inj (Option.some.inj hfh')
    exact hid'.2 rfl
  cases writable with
  | false =>
    have hself := PlainMount.synced_self (hs.synced_of_reader hfh)
    rw [hself] at hsync ⊢
    exact ⟨_, .releaseClean (hs.reader hfh) rfl, hs.closed hsync⟩
  | true =>
    obtain ⟨p, dirty, hopen, hp, hdirty⟩ := hs.openFile hfh
    cases dirty with
    | true =>
      obtain ⟨c, hc, -⟩ := hs.file hp
      have hclosed := (hs.sync hfh hp (hdirty.mp rfl)).closed hsync
      rw [withFile_withFile] at hclosed
      exact ⟨_, .releaseDirty hopen hc, hclosed⟩
    | false =>
      have hself := PlainMount.synced_self fun hid => Bool.false_ne_true (hdirty.mpr hid)
      rw [hself] at hsync ⊢
      exact ⟨_, .releaseClean hopen rfl, hs.closed hsync⟩

theorem step_rename (hwf : b.tree.Wf) (hsrc : m.names.Child parent name s)
    (hp : m.names.Child newparent newname p) (hsource : m.tree s ≠ none)
    (hparent : m.tree p.dropLast = some .dir) (hfree : m.tree p = none) (hapart : ¬ s <+: p)
    (hunwritten : m.Unwritten s) (hbare : Bare b (.rename parent name newparent newname)) :
    ∃ b', b.Step (.rename parent name newparent newname) (.ok .ok) b' ∧
      Stands b' (m.renamed s p) := by
  have hsrc' : b.names.Child parent name s := hs.names ▸ hsrc
  have hp' : b.names.Child newparent newname p := hs.names ▸ hp
  have hparent' := hs.eq_dir_iff.mpr hparent
  have hfree' := hs.eq_none_iff.mpr hfree
  obtain ⟨e, he⟩ := Option.ne_none_iff_exists'.mp hsource
  cases e with
  | dir =>
    have hdir := hs.eq_dir_iff.mpr he
    refine ⟨_, .renameDir hsrc' hp' hdir hparent' hfree' hapart, ?_⟩
    refine hs.renamed hwf hfree hapart hunwritten fun r hr => ?_
    rw [← hs.names]
    exact hbare s p hsrc' hp' hdir r hr
  | file id =>
    obtain ⟨c, hc, -⟩ := hs.file he
    refine ⟨_, .renameFile hsrc' hp' hc hparent' hfree', ?_⟩
    rw [← moved_file hwf hc hfree']
    refine hs.renamed hwf hfree hapart hunwritten fun r hr => ?_
    -- nothing is below a file, so nothing there has a number
    by_contra hnumber
    have hbelow := hwf.eq_none_below (p := s ++ r) (List.prefix_append s r) (by simp [hr])
      (by simp [hc])
    exact hs.sound.numbered _ hnumber (hs.eq_none_iff.mp hbelow)

/-- A request that the plain filesystem serves is served over buffers, if the client looks at
synced files only. -/
theorem step {m' : PlainMount} (hwf : b.tree.Wf) (horderly : m.Orderly r) (hbare : Bare b r)
    (hstep : m.Step r reply m') : ∃ b', b.Step r reply b' ∧ Stands b' m' := by
  have hchild : ∀ {parent name p}, m.names.Child parent name p → b.names.Child parent name p :=
    fun hp => hs.names ▸ hp
  have hkey : ∀ {ino p}, m.names.key ino = some p → b.names.key ino = some p :=
    fun hp => hs.names ▸ hp
  have hthere : ∀ {p}, m.tree p ≠ none → b.tree p ≠ none := fun hp hb =>
    hp (hs.eq_none_iff.mp hb)
  cases hstep with
  | @lookup _ _ p node hp hnode =>
    have hm : m.tree p ≠ none := fun hnone => by simp [PlainMount.view, hnone] at hnode
    rw [← hs.names]
    exact ⟨_, .lookup (hchild hp) ((hs.view_eq (horderly p hp)).trans hnode), hs.numbered hm⟩
  | lookupMissing hp hnone => exact ⟨b, .lookupMissing (hchild hp) (hs.eq_none_iff.mpr hnone), hs⟩
  | getattr hp hnode =>
    exact ⟨b, .getattr (hkey hp) ((hs.view_eq (horderly _ hp)).trans hnode), hs⟩
  | @resize ino p id size applied hp hfile =>
    obtain ⟨hsize, hclosed⟩ := horderly
    obtain rfl : size = 0 := Option.some.inj hsize
    obtain ⟨c, hc, -⟩ := hs.file hfile
    have hnil : PlainMount.resized (m.content id) 0 = [] := by simp [PlainMount.resized]
    rw [hnil]
    exact ⟨_, .truncate (hkey hp) hc, hs.storeUnopened hfile (hclosed p hp id hfile) []⟩
  | readdir hd hdir hsorted hall =>
    have hall' : ∀ n, n ∈ _ ↔ b.tree (_ ++ [n]) ≠ none := fun n =>
      (hall n).trans (not_congr hs.eq_none_iff.symm)
    have hnamed := hs.internAll fun n hn => (hall n).mp hn
    rw [← hs.names] at hnamed ⊢
    rw [← hs.kind_eq]
    exact ⟨_, .readdir (hkey hd) hsorted hall', hnamed⟩
  | mkdir hp hparent hfree =>
    rw [← hs.names]
    exact ⟨_, .mkdir (hchild hp) (hs.eq_dir_iff.mpr hparent) (hs.eq_none_iff.mpr hfree),
      (hs.putDir hfree).numbered (by simp)⟩
  | mkdirThere hp hm => exact ⟨b, .mkdirThere (hchild hp) (hthere hm), hs⟩
  | @rmdir _ _ p hp hdir hempty =>
    refine ⟨_, .rmdir (hchild hp) (hs.eq_dir_iff.mpr hdir) fun n => hs.eq_none_iff.mpr (hempty n),
      hs.drop fun id hid => ?_⟩
    rw [hdir] at hid
    cases hid
  | rmdirFull hp _ hfull => exact ⟨b, .rmdirFull (hchild hp) (hthere hfull), hs⟩
  | openInode hp hfile =>
    obtain ⟨hsync, hempty⟩ := horderly _ hp
    exact hs.step_openInode hp hfile (hsync _ hfile) fun htrunc => hempty htrunc _ hfile
  | @read fh id writable _ _ hfh =>
    cases writable with
    | false => exact ⟨b, .read (hs.reader hfh) rfl, hs⟩
    | true =>
      obtain ⟨p, dirty, hopen, -⟩ := hs.openFile hfh
      exact ⟨b, .read hopen rfl, hs⟩
  | write hfh => exact hs.step_write hfh (horderly _ _ hfh) _ _
  | fsync hfh => exact hs.step_fsync hfh
  | release hfh => exact hs.step_release hfh
  | @noHandle fh _ hr hnone =>
    have hkept := hs.files fh
    rw [hnone] at hkept
    refine ⟨b, .noHandle hr ?_, hs⟩
    generalize b.openFiles fh = f at hkept
    cases hkept
    rfl
  | create hp hparent hfree => exact hs.step_create hp hparent hfree
  | @createThere _ _ p id flags hp hfile hexcl =>
    have hlook := horderly.resolve_left (by simp [hexcl]) p hp
    cases htrunc : flags.trunc with
    | true =>
      rw [if_pos htrunc] at hlook
      rw [OpenFlags.openedContent, if_pos htrunc]
      exact hs.step_createTrunc hp hfile hexcl htrunc (hlook id hfile)
    | false =>
      -- the buffer starts empty, and so is the file
      rw [if_neg (by simp [htrunc])] at hlook
      obtain ⟨hsync, hempty⟩ := hlook
      rw [OpenFlags.openedContent, if_neg (by simp [htrunc]), PlainMount.store_self,
        hempty id hfile]
      exact hs.step_createThere hp hfile hexcl htrunc (hsync id hfile) (hempty id hfile)
  | createRefused hp hm hexcl => exact ⟨b, .createRefused (hchild hp) (hthere hm) hexcl, hs⟩
  | @unlink _ _ p id hp hfile =>
    obtain ⟨c, hc, -⟩ := hs.file hfile
    exact ⟨_, .unlink (hchild hp) hc, hs.drop (horderly p hp p (List.prefix_refl p))⟩
  | unlinkMissing hp hnone => exact ⟨b, .unlinkMissing (hchild hp) (hs.eq_none_iff.mpr hnone), hs⟩
  | rename hsrc hp hsource hparent _ hapart =>
    exact hs.step_rename hwf hsrc hp hsource hparent (horderly.2 _ hp) hapart (horderly.1 _ hsrc)
      hbare
  | forgotten hr hnone => exact ⟨b, .forgotten hr (hs.names ▸ hnone), hs⟩
  | flush => exact ⟨b, .flush, hs⟩

end Requests

end Stands

end BufferedMount

end Rspacefs
