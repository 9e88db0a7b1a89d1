import Rspacefs.Lib.Interning
import Rspacefs.Fuse.Touch

/-!
# The inode tables

A request numbers the paths it replies entries for, takes a path out when it was
removed, and moves the number of a path that was renamed. So what survives these three
operations on the tables survives the request. Two things can go wrong, both at a
rename: the target can have a number already, which is then left without a path of its
own, and a directory takes the paths below it along, but not their numbers.

## Main definitions

* `tables` — the tables of a state
* `FreeTarget`, `BareSource` — the renames that do not go wrong in these ways

## Main results

* `step_tables` — what survives the operations survives a request
* `tables_inverse` — the tables stay inverse over a run
* `inodes_follow_renames` — an inode denotes its file across renames of directories
-/

namespace Rspacefs

open Lib

variable {υ ℓ α : Type} {s : Fuse υ ℓ} {path src dst : Path} {ino : Ino} {fh : Fh}

namespace Fuse

/-! ### The operations -/

variable {I : Interned Path → Prop}

theorem internPath_tables (hintern : ∀ t p, I t → I (t.intern p)) :
    Triple (fun s => I (tables s)) (internPath path : FuseM υ ℓ Ino) (fun _ s => I (tables s))
      (fun s => I (tables s)) := by
  intro s hs
  rw [run_internPath]
  have hnumbered := hintern _ path hs
  unfold Interned.intern tables at hnumbered
  dsimp only at hnumbered
  cases hpath : s.paths path with
  | some ino => exact hs
  | none =>
    rw [hpath] at hnumbered
    exact hnumbered

theorem tables_unbind {E : Fuse υ ℓ → Prop} :
    Triple (fun s => I ((tables s).unbind path)) (unbind path : FuseM υ ℓ Unit)
      (fun _ s => I (tables s)) E := by
  refine Triple.modify fun s hs => ?_
  unfold Interned.unbind tables at hs
  dsimp only at hs
  cases hpath : s.paths path <;> rw [hpath] at hs <;> exact hs

theorem tables_rebind {E : Fuse υ ℓ → Prop} :
    Triple (fun s => I ((tables s).rebind src dst)) (rebind src dst : FuseM υ ℓ Unit)
      (fun _ s => I (tables s)) E := by
  refine Triple.modify fun s hs => ?_
  unfold Interned.rebind tables at hs
  dsimp only at hs
  cases hsrc : s.paths src <;> rw [hsrc] at hs <;> exact hs

/-- What `rmdir` and `unlink` do once they have checked that they may. -/
theorem remove_tables {x : FuseM υ ℓ Unit} (hx : Keeps tables x) (hs : I (tables s))
    (hun : I ((tables s).unbind path)) :
    Triple (· = s) (do x; unbind path; return .ok : FuseM υ ℓ Reply)
      (fun _ s => I (tables s)) (fun s => I (tables s)) := by
  refine Triple.bind (R := fun _ s' => tables s' = tables s)
    ((hx (tables s)).weaken (by rintro _ rfl; rfl) (fun _ _ h => h) ?_) fun _ => ?_
  · intro s' hs'
    rwa [hs']
  · refine Triple.bind (tables_unbind.weaken ?_ (fun _ _ h => h) fun _ h => h)
      fun _ => Triple.pure _ fun _ h => h
    intro s' hs'
    rwa [hs']

/-- The path that a removal takes out of the tables. -/
def unbinds (s : Fuse υ ℓ) : Request → Option Path
  | .rmdir parent name | .unlink parent name => childPath s parent name
  | _ => none

theorem unbinds_ne_nil {r : Request} (h : unbinds s r = some path) : path ≠ [] := by
  cases r <;> simp only [unbinds, reduceCtorEq] at h <;> exact childPath_ne_nil h

/-- The tables are inverse to each other and the root has its number. -/
def Sound (t : Interned Path) : Prop := t.Inverse ∧ t.key rootIno = some []

theorem sound_new (root : LayerFS υ ℓ) (verifiedLayers : List Bool) (frames : Nat) :
    Sound (tables (new root verifiedLayers frames)) := by
  refine ⟨⟨fun i p => ?_, fun i p h => ?_⟩, rfl⟩ <;> simp only [tables, new] at *
  · by_cases hi : i = rootIno <;> by_cases hp : p = []
    · simp [hi, hp]
    · rw [hi, Function.update_self, Function.update_of_ne hp, Option.some.injEq]
      exact iff_of_false (fun h => hp h.symm) fun h => by cases h
    · rw [hp, Function.update_self, Function.update_of_ne hi, Option.some.injEq]
      exact iff_of_false (fun h => by cases h) fun h => hi h.symm
    · rw [Function.update_of_ne hi, Function.update_of_ne hp]
      exact iff_of_false (fun h => by cases h) fun h => by cases h
  · by_cases hi : i = rootIno
    · exact hi ▸ Nat.lt_succ_self _
    · rw [Function.update_of_ne hi] at h
      cases h

section Handlers

variable [PhysicalFS υ] [PhysicalFS ℓ]

/-! ### Every request -/

/-- Both ends of a rename that has something to move and a free place for it. -/
def renames (s : Fuse υ ℓ) : Request → Option (Path × Path)
  | .rename parent name newparent newname => ends s parent name newparent newname
  | _ => none

theorem entry_tables (hintern : ∀ t p, I t → I (t.intern p)) (ft : VfsFileType) :
    Triple (fun s => I (tables s)) (do
        let ino ← internPath path
        return .entry (← attrNow ino path ft) : FuseM υ ℓ Reply)
      (fun _ s => I (tables s)) (fun s => I (tables s)) :=
  Triple.bind (internPath_tables hintern) fun _ =>
    (Keeps.bind (attrNow_keeps _) fun _ => Keeps.pure _).triple

theorem listEntries_tables (hintern : ∀ t p, I t → I (t.intern p)) (names : List Name) :
    Triple (fun s => I (tables s))
      (listEntries path names : FuseM υ ℓ (List (Ino × FileKind × Name)))
      (fun _ s => I (tables s)) (fun s => I (tables s)) := by
  induction names with
  | nil => exact Triple.pure _ fun _ h => h
  | cons name names ih =>
    exact Triple.bind (Keeps.ask _).triple fun _ =>
      Triple.bind (internPath_tables hintern) fun _ => Triple.bind ih fun _ =>
        Triple.pure _ fun _ h => h

theorem readdir_tables (hintern : ∀ t p, I t → I (t.intern p)) (offset capacity : Nat) :
    Triple (fun s => I (tables s)) (readdir ino offset capacity : FuseM υ ℓ Reply)
      (fun _ s => I (tables s)) (fun s => I (tables s)) :=
  Triple.bind pathOf_keeps.triple fun _ => Triple.bind (onRoot_keeps _).triple fun _ =>
    Triple.bind (Keeps.ask _).triple fun _ => Triple.bind (listEntries_tables hintern _) fun _ =>
      Triple.pure _ fun _ h => h

theorem create_tables (hintern : ∀ t p, I t → I (t.intern p)) (parent : Ino) (name : Name)
    (flags : OpenFlags) :
    Triple (fun s => I (tables s)) (create parent name flags : FuseM υ ℓ Reply)
      (fun _ s => I (tables s)) (fun s => I (tables s)) :=
  Triple.bind pathOf_keeps.triple fun _ => Triple.bind (join_keeps _ _).triple fun _ =>
    Triple.bind (Keeps.ask _).triple fun _ => Triple.bind (failIf_keeps _ _).triple fun _ =>
      Triple.bind (createIn_keeps _).triple fun _ =>
        Triple.bind (internPath_tables hintern) fun _ =>
          (Keeps.bind (attrNow_keeps _) fun _ => Keeps.bind allocFh_keeps fun _ =>
            Keeps.bind (insertFile_keeps _) fun _ => Keeps.pure _).triple

theorem rename_tables {parent newparent : Ino} {name newname : Name} (hs : I (tables s))
    (hre : ∀ src dst, ends s parent name newparent newname = some (src, dst) →
      I ((tables s).rebind src dst)) :
    Triple (· = s) (rename parent name newparent newname : FuseM υ ℓ Reply)
      (fun _ s => I (tables s)) (fun s => I (tables s)) := by
  refine rename_from hs fun src dst hsrc hdst => ?_
  -- the overlay call returns only where there is something to move, and leaves the tables
  have hends : Triple (fun s' : Fuse υ ℓ => s'.root = s.root)
      (onRoot .eio (if isDirInRoot src s then VfsPath.moveDir s.frames src dst
        else VfsPath.moveFile src dst))
      (fun _ _ => ends s parent name newparent newname = some (src, dst)) (fun _ => True) :=
    onRoot_rooted (move_from trivial
      (fun _ hthere hfree => Triple.true.weaken (fun _ h => h)
        (fun _ _ _ => ends_eq_some hsrc hdst hthere hfree) fun _ h => h)
      fun _ hthere hfree => Triple.true.weaken (fun _ h => h)
        (fun _ _ _ => ends_eq_some hsrc hdst hthere hfree) fun _ h => h)
  have hmove := hends.and (onRoot_keeps (g := tables) _ (tables s))
  refine Triple.bind (hmove.weaken (by rintro _ rfl; exact ⟨rfl, rfl⟩) (fun _ _ h => h) ?_)
    fun _ => ?_
  · rintro s' ⟨-, hs'⟩
    rwa [hs']
  · refine Triple.bind (tables_rebind.weaken ?_ (fun _ _ h => h) fun _ h => h)
      fun _ => Triple.pure _ fun _ h => h
    rintro s' ⟨hends, hs'⟩
    rw [hs']
    exact hre src dst hends

/-- What survives numbering any path, taking out the path that the request removes and
moving the number of the path that it renames survives the request. -/
theorem step_tables {r : Request} (hs : I (tables s)) (hintern : ∀ t p, I t → I (t.intern p))
    (hun : ∀ path, unbinds s r = some path → I ((tables s).unbind path))
    (hre : ∀ src dst, renames s r = some (src, dst) → I ((tables s).rebind src dst)) :
    I (tables (next s r)) := by
  have hstart : ∀ {x : FuseM υ ℓ Reply}, Triple (fun s => I (tables s)) x
      (fun _ s => I (tables s)) (fun s => I (tables s)) →
      Triple (· = s) x (fun _ s => I (tables s)) (fun s => I (tables s)) := fun hx =>
    hx.weaken (by rintro _ rfl; exact hs) (fun _ _ h => h) fun _ h => h
  suffices hstep : Triple (· = s) (step r) (fun _ s => I (tables s)) (fun s => I (tables s)) from
    hstep.finalState rfl
  cases r with
  | lookup parent name =>
    exact hstart (Triple.bind pathOf_keeps.triple fun _ => Triple.bind (join_keeps _ _).triple
      fun _ => Triple.bind (failIf_keeps _ _).triple fun _ => entry_tables hintern _)
  | getattr ino => exact hstart getattr_keeps.triple
  | setattr ino attrs => exact hstart (setattr_keeps _).triple
  | readdir ino offset capacity => exact hstart (readdir_tables hintern _ _)
  | mkdir parent name =>
    exact hstart (Triple.bind pathOf_keeps.triple fun _ => Triple.bind (join_keeps _ _).triple
      fun _ => Triple.bind (failIf_keeps _ _).triple fun _ =>
        Triple.bind (onRoot_keeps _).triple fun _ => entry_tables hintern _)
  | rmdir parent name =>
    exact childPath_from hs fun path hpath => failIf_from hs fun _ =>
      remove_tables (onRoot_keeps _) hs (hun path hpath)
  | openInode ino flags backed => exact hstart (openInode_keeps _ _).triple
  | read fh offset size => exact hstart (read_keeps _ _).triple
  | write fh offset data => exact hstart (write_keeps _ _).triple
  | release fh => exact hstart release_keeps.triple
  | create parent name flags => exact hstart (create_tables hintern _ _ _)
  | unlink parent name =>
    exact childPath_from hs fun path hpath => failIf_from hs fun _ =>
      remove_tables (onRoot_keeps _) hs (hun path hpath)
  | rename parent name newparent newname => exact rename_tables hs hre
  | readlink ino => exact hstart readlink_keeps.triple
  | symlink parent name link =>
    exact hstart (Triple.bind pathOf_keeps.triple fun _ => Triple.bind (join_keeps _ _).triple
      fun _ => Triple.bind dropWhiteout_keeps.triple fun _ =>
        Triple.bind (onRoot_keeps _).triple fun _ => Triple.bind (onRoot_keeps _).triple fun _ =>
          entry_tables hintern _)
  | setxattr ino applied => exact hstart (changeXattr_keeps _).triple
  | removexattr ino applied => exact hstart (changeXattr_keeps _).triple
  | fsync fh => exact hstart fsync_keeps.triple
  | flush => exact hstart (Keeps.pure _).triple

/-! ### The tables stay inverse -/

/-- The path that a request moves is numbered only where its new place is not. -/
def FreeTarget (s : Fuse υ ℓ) (r : Request) : Prop :=
  ∀ src dst, renames s r = some (src, dst) → (s.paths src).isSome → s.paths dst = none

theorem ends_eq_some_iff {parent newparent : Ino} {name newname : Name} :
    ends s parent name newparent newname = some (src, dst) ↔
      childPath s parent name = some src ∧ childPath s newparent newname = some dst ∧
        existsInRoot src s = true ∧ existsInRoot dst s = false := by
  constructor
  · intro h
    obtain ⟨a, ha, h⟩ := Option.bind_eq_some_iff.mp h
    obtain ⟨b, hb, h⟩ := Option.bind_eq_some_iff.mp h
    split at h
    · rename_i hboth
      obtain ⟨rfl, rfl⟩ := Prod.mk.inj (Option.some.inj h)
      simpa [ha, hb] using hboth
    · cases h
  · rintro ⟨hsrc, hdst, hthere, hfree⟩
    exact ends_eq_some hsrc hdst hthere hfree

theorem renames_spec {r : Request} (h : renames s r = some (src, dst)) :
    src ≠ [] ∧ src ≠ dst := by
  cases r <;> simp only [renames, reduceCtorEq] at h
  obtain ⟨hsrc, -, hthere, hfree⟩ := ends_eq_some_iff.mp h
  refine ⟨childPath_ne_nil hsrc, ?_⟩
  rintro rfl
  rw [hthere] at hfree
  cases hfree

theorem Sound.step (h : Sound (tables s)) {r : Request} (hr : FreeTarget s r) :
    Sound (tables (next s r)) := by
  obtain ⟨hinv, hroot⟩ := h
  refine step_tables ⟨hinv, hroot⟩ (fun t p ht => ⟨ht.1.intern p, ?_⟩) (fun p hp => ?_) ?_
  · rw [Interned.key_intern (ht.1.below _ _ ht.2), ht.2]
  · exact ⟨hinv.unbind p, hinv.key_unbind_of_ne hroot (unbinds_ne_nil hp).symm⟩
  · intro src dst hmoved
    obtain ⟨hsrc, hne⟩ := renames_spec hmoved
    refine ⟨(hinv.rebind_iff hne).mpr (hr src dst hmoved), ?_⟩
    rw [Interned.key_rebind, if_neg, hroot]
    -- the root has no second number
    intro h
    exact hsrc (Option.some.inj (((hinv.inverse _ _).mpr h).symm.trans hroot))

theorem Sound.run (h : Sound (tables s)) {rs : List Request}
    (hrs : EachStep next FreeTarget s rs) : Sound (tables (run s rs)) :=
  EachStep.invariant (I := fun s => Sound (tables s)) hrs (fun _ _ h hr => h.step hr) h

/-- Over a run in which no path is moved to a path with a number of its own, the two
tables stay inverse to each other, inode 1 is the root, and every number in the tables
is below the next one. -/
theorem tables_inverse (root : LayerFS υ ℓ) (verifiedLayers : List Bool) (frames : Nat)
    (rs : List Request) (hrs : EachStep next FreeTarget (new root verifiedLayers frames) rs) :
    (∀ i p, (run (new root verifiedLayers frames) rs).inodes i = some p ↔
      (run (new root verifiedLayers frames) rs).paths p = some i) ∧
    (run (new root verifiedLayers frames) rs).inodes rootIno = some [] ∧
    (∀ i p, (run (new root verifiedLayers frames) rs).inodes i = some p →
      i < (run (new root verifiedLayers frames) rs).nextIno) ∧
    ∀ p i, (run (new root verifiedLayers frames) rs).paths p = some i →
      i < (run (new root verifiedLayers frames) rs).nextIno := by
  obtain ⟨hinv, hroot⟩ := (sound_new root verifiedLayers frames).run hrs
  exact ⟨hinv.inverse, hroot, hinv.below, fun p i h => hinv.below i p ((hinv.inverse i p).mpr h)⟩

/-- An image of two layers that deletes a file, under an upper with another file. -/
def deletedMount : Fuse Tree Tree :=
  new ⟨Tree.ofEntries [(["y".toList], .file [2])], deletedStack.lower⟩ [] 8

theorem tables_inverse_deletedMount :
    (run deletedMount [.lookup rootIno "y".toList,
      .rename rootIno "y".toList rootIno "z".toList]).paths ["z".toList] = some 2 := by
  refine ((tables_inverse _ _ _ [.lookup rootIno "y".toList,
    .rename rootIno "y".toList rootIno "z".toList] ⟨?_, ?_, trivial⟩).1 2 ["z".toList]).mp rfl
  · intro src dst h
    cases h
  · intro src dst h _
    obtain ⟨-, hdst, -, -⟩ := ends_eq_some_iff.mp h
    rw [← Option.some.inj hdst]
    rfl

/-- A deleted file that was looked up keeps its number when another file is moved to its
path. -/
theorem not_tables_inverse_deletedMount :
    let s := run deletedMount [.lookup rootIno "x".toList, .lookup rootIno "y".toList,
      .rename rootIno "y".toList rootIno "x".toList]
    s.inodes 2 = some ["x".toList] ∧ s.paths ["x".toList] = some 3 :=
  ⟨rfl, rfl⟩

/-! ### Renamed directories -/

/-- No path below a directory that the request renames is numbered. -/
def BareSource (s : Fuse υ ℓ) (r : Request) : Prop :=
  ∀ src dst, renames s r = some (src, dst) → isDirInRoot src s = true →
    ∀ i p, s.inodes i = some p → src <+: p → p = src

variable {r : Request} {reply : Reply} {rs : List Request} {p y : Path} {i : Ino}

/-- A rename that is answered with success has moved the number. -/
theorem tables_of_rename (hmoved : renames s r = some (src, dst)) (hok : respond s r = .ok reply) :
    tables (next s r) = (tables s).rebind src dst := by
  cases r <;> simp only [renames, reduceCtorEq] at hmoved
  case rename parent name newparent newname =>
    obtain ⟨hsrc, hdst, -, -⟩ := ends_eq_some_iff.mp hmoved
    have hrename : Triple (· = s) (rename parent name newparent newname)
        (fun _ s' => tables s' = (tables s).rebind src dst) (fun _ => True) := by
      refine rename_from trivial fun src' dst' hsrc' hdst' => ?_
      obtain rfl : src' = src := Option.some.inj (hsrc'.symm.trans hsrc)
      obtain rfl : dst' = dst := Option.some.inj (hdst'.symm.trans hdst)
      refine Triple.bind (R := fun _ s' => tables s' = tables s) ((onRoot_keeps (g := tables) _
        (tables s)).weaken (by rintro _ rfl; rfl) (fun _ _ h => h) fun _ _ => trivial) fun _ => ?_
      refine Triple.bind ((tables_rebind (I := (· = (tables s).rebind src' dst'))).weaken ?_
        (fun _ _ h => h) fun _ h => h) fun _ => Triple.pure _ fun _ h => h
      intro s' hs'
      rw [hs']
    exact next_of_ok hrename hok

/-- After a rename the inodes of the paths below its source stand for the paths below
its target exactly when the source is the only such path with an inode. -/
theorem follow_rename_iff (h : Sound (tables s)) (hmoved : renames s r = some (src, dst))
    (hok : respond s r = .ok reply) :
    (∀ i x, s.inodes i = some (src ++ x) → (next s r).inodes i = some (dst ++ x)) ↔
      ∀ i p, s.inodes i = some p → src <+: p → p = src := by
  have hkey : ∀ i, (next s r).inodes i = if s.paths src = some i then some dst else s.inodes i := by
    intro i
    change (tables (next s r)).key i = _
    rw [tables_of_rename hmoved hok, Interned.key_rebind]
    rfl
  constructor
  · rintro hfollow i _ hi ⟨x, rfl⟩
    have hafter := hfollow i x hi
    rw [hkey] at hafter
    split at hafter
    · rename_i hnumber
      exact Option.some.inj (hi.symm.trans ((h.1.inverse i src).mpr hnumber))
    · -- the inode still stands for the path below the source
      rw [hi, Option.some.injEq] at hafter
      exact absurd (List.append_cancel_right hafter) (renames_spec hmoved).2
  · intro hbare i x hi
    have hx : src ++ x = src := hbare i _ hi (List.prefix_append src x)
    rw [hx] at hi
    have hnil : x = [] := by simpa using hx
    have hnumber : s.paths src = some i := (h.1.inverse i src).mp hi
    rw [hkey, if_pos hnumber, hnil, List.append_nil]

/-- An inode that was given out comes to stand for a path only by a rename. -/
theorem key_step (h : Sound (tables s)) (hi : i < s.nextIno)
    (hafter : (next s r).inodes i = some y) :
    s.inodes i = some y ∨ ∃ src, renames s r = some (src, y) ∧ s.inodes i = some src := by
  have hstep := step_tables (s := s) (r := r) (I := fun t => i < t.next ∧ (t.key i = some y →
    s.inodes i = some y ∨ ∃ src, renames s r = some (src, y) ∧ s.inodes i = some src))
    ⟨hi, Or.inl⟩ ?_ ?_ ?_
  · exact hstep.2 hafter
  · intro t p ht
    exact ⟨ht.1.trans_le Interned.le_next_intern, fun hk =>
      ht.2 (by rwa [Interned.key_intern ht.1] at hk)⟩
  · intro p _
    exact ⟨by rwa [Interned.next_unbind], fun hk => Or.inl (Interned.key_unbind hk)⟩
  · intro src dst hmoved
    refine ⟨by rwa [Interned.next_rebind], fun hk => ?_⟩
    rw [Interned.key_rebind] at hk
    split at hk
    · rename_i hnumber
      obtain rfl := Option.some.inj hk
      exact Or.inr ⟨src, hmoved, (h.1.inverse i src).mpr hnumber⟩
    · exact Or.inl hk

/-- An inode stands for its path until that is removed or renamed. -/
theorem key_kept (h : Sound (tables s)) (hi : s.inodes i = some y) (hun : unbinds s r ≠ some y)
    (hre : ∀ dst, renames s r ≠ some (y, dst)) : (next s r).inodes i = some y := by
  have hstep := step_tables (s := s) (r := r) (I := fun t => i < t.next ∧ t.key i = some y)
    ⟨h.1.below i y hi, hi⟩ ?_ ?_ ?_
  · exact hstep.2
  · intro t p ht
    exact ⟨ht.1.trans_le Interned.le_next_intern, (Interned.key_intern ht.1).trans ht.2⟩
  · intro p hp
    refine ⟨by rw [Interned.next_unbind]; exact h.1.below i y hi, ?_⟩
    exact h.1.key_unbind_of_ne hi fun hyp => hun (hyp ▸ hp)
  · intro src dst hmoved
    refine ⟨by rw [Interned.next_rebind]; exact h.1.below i y hi, ?_⟩
    rw [Interned.key_rebind, if_neg]
    · exact hi
    · intro hnumber
      have hsrc : y = src :=
        Option.some.inj (hi.symm.trans ((h.1.inverse i src).mpr hnumber))
      exact hre dst (hsrc ▸ hmoved)

theorem nextIno_le : s.nextIno ≤ (next s r).nextIno := by
  refine step_tables (I := fun t => s.nextIno ≤ t.next) (Nat.le_refl _) ?_ ?_ ?_
  · exact fun t p ht => ht.trans Interned.le_next_intern
  · intro p _
    rw [Interned.next_unbind]
    exact Nat.le_refl _
  · intro src dst _
    rw [Interned.next_rebind]
    exact Nat.le_refl _

/-- Over a run, an inode comes to stand for a path only where a rename moves it there. -/
theorem key_run (h : Sound (tables s)) (hrs : EachStep next FreeTarget s rs) (hi : i < s.nextIno)
    (hbefore : s.inodes i ≠ some y) (hafter : (run s rs).inodes i = some y) :
    ∃ rs₁ r rs₂ src, rs = rs₁ ++ r :: rs₂ ∧ renames (run s rs₁) r = some (src, y) ∧
      (run s rs₁).inodes i = some src := by
  induction rs generalizing s with
  | nil => exact absurd hafter hbefore
  | cons r rs ih =>
    by_cases hnext : (next s r).inodes i = some y
    · obtain ⟨src, hmoved, hsrc⟩ := (key_step h hi hnext).resolve_left hbefore
      exact ⟨[], r, rs, src, rfl, hmoved, hsrc⟩
    · obtain ⟨rs₁, r', rs₂, src, rfl, hmoved, hsrc⟩ :=
        ih (h.step hrs.1) hrs.2 (hi.trans_le nextIno_le) hnext hafter
      exact ⟨r :: rs₁, r', rs₂, src, rfl, hmoved, hsrc⟩

/-- Over a run in which directories are renamed only while no path below them has an
inode, and nothing is moved to a path that has one: the inodes below a renamed directory
stand for the paths below its new place, until these are removed or renamed themselves,
and such an inode stands for its old path again only where a rename moves it back. -/
theorem inodes_follow_renames (root : LayerFS υ ℓ) (verifiedLayers : List Bool) (frames : Nat)
    (before after : List Request) (r : Request) (a b : Path) (reply : Reply)
    (hrun : EachStep next (fun s r => FreeTarget s r ∧ BareSource s r)
      (new root verifiedLayers frames) (before ++ r :: after))
    (hmoved : renames (run (new root verifiedLayers frames) before) r = some (a, b))
    (hdir : isDirInRoot a (run (new root verifiedLayers frames) before) = true)
    (hok : respond (run (new root verifiedLayers frames) before) r = .ok reply) (i : Ino) (x : Path)
    (hi : (run (new root verifiedLayers frames) before).inodes i = some (a ++ x)) :
    (EachStep next (fun s r => unbinds s r ≠ some (b ++ x) ∧ ∀ dst, renames s r ≠ some (b ++ x, dst))
        (next (run (new root verifiedLayers frames) before) r) after →
      (run (new root verifiedLayers frames) (before ++ r :: after)).inodes i = some (b ++ x)) ∧
    ((run (new root verifiedLayers frames) (before ++ r :: after)).inodes i = some (a ++ x) →
      ∃ after₁ r' after₂ src, after = after₁ ++ r' :: after₂ ∧
        renames (run (new root verifiedLayers frames) (before ++ r :: after₁)) r' =
          some (src, a ++ x) ∧
        (run (new root verifiedLayers frames) (before ++ r :: after₁)).inodes i = some src) := by
  obtain ⟨hbefore, ⟨hfree, hbare⟩, hafter⟩ := eachStep_append.mp hrun
  have hsound := (sound_new root verifiedLayers frames).run (hbefore.mono fun _ _ h => h.1)
  have hnext := hsound.step hfree
  have hafter := hafter.mono fun _ _ h => h.1
  -- the rename itself takes the number along
  have hthere := (follow_rename_iff hsound hmoved hok).mpr (hbare a b hmoved hdir) i x hi
  have hsplit : ∀ rs, run (new root verifiedLayers frames) (before ++ r :: rs) =
      run (next (run (new root verifiedLayers frames) before) r) rs := fun rs => by
    simp [run, List.foldl_append]
  refine ⟨fun hkept => ?_, fun hback => ?_⟩
  · rw [hsplit]
    have hboth := hafter.and hkept
    exact (EachStep.invariant (I := fun s => Sound (tables s) ∧ s.inodes i = some (b ++ x)) hboth
      (fun s r hs hr => ⟨hs.1.step hr.1, key_kept hs.1 hs.2 hr.2.1 hr.2.2⟩) ⟨hnext, hthere⟩).2
  · rw [hsplit] at hback
    have hne : (next (run (new root verifiedLayers frames) before) r).inodes i ≠ some (a ++ x) := by
      rw [hthere, Ne, Option.some.injEq]
      exact fun h => (renames_spec hmoved).2 (List.append_cancel_right h).symm
    -- a path that a number comes to stand for in a run is the target of some rename
    obtain ⟨after₁, r', after₂, src, heq, hmoved', hsrc⟩ :=
      key_run hnext hafter (hnext.1.below i _ hthere) hne hback
    exact ⟨after₁, r', after₂, src, heq, by rw [hsplit]; exact hmoved', by rw [hsplit]; exact hsrc⟩

/-- A directory with a file. -/
def oneDir : LayerFS Tree Tree :=
  ⟨Tree.ofEntries [(["d".toList], .dir), (["d".toList, "f".toList], .file [1])], []⟩

/-- The rename of the directory. -/
def moveDirectory : Request := .rename rootIno "d".toList rootIno "e".toList

theorem inodes_follow_renames_oneDir :
    (run (new oneDir [] 8)
      ([.lookup rootIno "d".toList] ++ moveDirectory :: [.lookup 2 "f".toList])).inodes 2 = some ["e".toList] := by
  have hpaths : ∀ i p, (run (new oneDir [] 8) [.lookup rootIno "d".toList]).inodes i = some p →
      p = [] ∨ p = ["d".toList] := by
    intro i p hi
    have hinodes : (run (new oneDir [] 8) [.lookup rootIno "d".toList]).inodes i =
        Function.update (Function.update (fun _ => none) rootIno (some [])) (rootIno + 1)
          (some ["d".toList]) i := rfl
    rw [hinodes, Function.update_apply, Function.update_apply] at hi
    split at hi
    · exact Or.inr (Option.some.inj hi).symm
    · split at hi
      · exact Or.inl (Option.some.inj hi).symm
      · cases hi
  have hrun : EachStep next (fun s r => FreeTarget s r ∧ BareSource s r) (new oneDir [] 8)
      ([.lookup rootIno "d".toList] ++ moveDirectory :: [.lookup 2 "f".toList]) := by
    refine ⟨⟨fun _ _ h => ?_, fun _ _ h => ?_⟩,
      ⟨fun src dst h _ => ?_, fun src dst h _ i p hi hp => ?_⟩,
      ⟨fun _ _ h => ?_, fun _ _ h => ?_⟩, trivial⟩
    case refine_3 =>
      obtain ⟨-, hdst, -, -⟩ := ends_eq_some_iff.mp h
      rw [← Option.some.inj hdst]
      rfl
    case refine_4 =>
      obtain ⟨hsrc, -, -, -⟩ := ends_eq_some_iff.mp h
      obtain rfl : ["d".toList] = src := Option.some.inj hsrc
      -- only the root and the directory have inodes
      rcases hpaths i p hi with rfl | rfl
      · simp at hp
      · rfl
    all_goals cases h
  have hfollow := inodes_follow_renames _ _ _ [.lookup rootIno "d".toList]
    [.lookup 2 "f".toList] moveDirectory ["d".toList] ["e".toList] .ok hrun
    (by decide +kernel) (by decide +kernel) (by decide +kernel) 2 [] (by decide +kernel)
  have hlast : EachStep next (fun s r => unbinds s r ≠ some (["e".toList] ++ []) ∧
      ∀ dst, renames s r ≠ some (["e".toList] ++ [], dst))
      (next (run (new oneDir [] 8) [.lookup rootIno "d".toList]) moveDirectory)
      [.lookup 2 "f".toList] :=
    ⟨⟨(Option.some_ne_none _).symm, fun _ => (Option.some_ne_none _).symm⟩, trivial⟩
  have hafter := hfollow.1 hlast
  rwa [List.append_nil] at hafter

/-- The inode of a file stays behind when its directory is renamed, and is then given to
a new file at the old path. -/
theorem not_inodes_follow_renames_oneDir :
    let before : List Request := [.lookup rootIno "d".toList, .lookup 2 "f".toList]
    (run (new oneDir [] 8) before).inodes 3 = some ["d".toList, "f".toList] ∧
    respond (run (new oneDir [] 8) before) moveDirectory = .ok .ok ∧
    (run (new oneDir [] 8) (before ++ [moveDirectory])).inodes 3 = some ["d".toList, "f".toList] ∧
    respond (run (new oneDir [] 8) (before ++ [moveDirectory, .mkdir rootIno "d".toList]))
      (.create 4 "f".toList ⟨.readWrite, false, false⟩) =
        .ok (.created ⟨3, 0, .regularFile⟩ 1) := by
  decide +kernel

end Handlers

end Fuse

end Rspacefs
