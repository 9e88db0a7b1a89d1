import Rspacefs.Core.Changes
import Rspacefs.Fuse.Fresh
import Rspacefs.Fuse.Tables

/-!
# Registered backing files

A read-only open is answered with a backing file, which the kernel then reads without
asking the daemon. The daemon remembers the backing file of an inode and answers with it
again as long as some open file holds it. It does not look where the path is found by
then: when a file that was opened in a lower layer is written to, the copy in the upper
layer is what the overlay shows, but opens are answered with the lower file until the last
handle on that is closed.

## Main definitions

* `Apart` — a write does not come between the side-channel and the file it finds
* `Backed` — every backing file that is held is the one that the side-channel finds
* `Undisturbed` — the requests that leave it so
* `backingContent` — what the kernel reads

## Main results

* `step_puts` — a request that removes nothing puts things at the paths it writes
* `Backed.step`, `Backed.run` — undisturbed runs keep backing files where they are found
* `passthrough_close_to_open`, `stale_passthrough_lowerFile` — an open gets the file that
  is found, and what a release wrote, there, and not elsewhere
-/

namespace Rspacefs

open Lib LayerFS

namespace Fuse

/-! ### What a request puts into the upper layer -/

section Puts

variable {s : Fuse Tree Tree} {I : Stack → Prop} {fs : Stack} {path q : Path} {ino : Ino} {fh : Fh}
  {r : Request}

/-- The request removes or moves a name. -/
def Removes : Request → Prop
  | .rmdir _ _ | .unlink _ _ | .rename _ _ _ _ => True
  | _ => False

theorem createDirAll_puts {J : Tree → Prop} (hJ : ∀ u u' x, J u → x <+: q → x ≠ [] →
      u.get? x = none → u.get? x.dropLast = some .dir →
      u'.get? = Function.update u.get? x (some .dir) → J u')
    (current : Path) (parts : List Name) (hq : current ++ parts <+: q) :
    Triple J (createDirAll current parts) (fun _ => J) J := by
  induction parts generalizing current with
  | nil => exact Triple.pure () fun _ h => h
  | cons part rest ih =>
    have hrest : current ++ [part] ++ rest <+: q := by simpa using hq
    refine Triple.bind (R := fun _ => J) ?_ fun _ => ih _ hrest
    refine Triple.tryCatch (E := J) ?_ fun e => ?_
    · refine Triple.of_forall fun u hu => (Tree.createDir_spec u (current ++ [part])).weaken
        (fun _ h => h) ?_ (by rintro _ rfl; exact hu)
      rintro _ u' ⟨hnone, hparent, hne, hget⟩
      exact hJ u u' _ hu ((List.prefix_append _ _).trans hrest) hne hnone hparent hget
    · refine Triple.bind (R := fun _ => J) (Triple.ask (fun _ _ h _ => h) fun _ h => h)
        fun isDir => ?_
      exact Triple.ite (fun _ => Triple.pure () fun _ h => h) fun _ => Triple.throw _ fun _ h => h

theorem makeParents_puts (hI : KeptByMkdir I q) :
    Triple (fun s : Fuse Tree Tree => I s.root) (onUpperDir (createDirAll [] q))
      (fun _ s => I s.root) (fun s => I s.root) := by
  refine onRoot_rooted (onUpper_rule fun lower => createDirAll_puts (q := q) ?_ [] q (by simp))
  intro u u' x hu hx hne hnone hparent hget
  exact hI ⟨u, lower⟩ ⟨u', lower⟩ x hu hx hne hnone hparent ⟨rfl, hget⟩

theorem dropWhiteout_puts (hI : KeptByUnmark I path) :
    Triple (fun s : Fuse Tree Tree => I s.root) (dropWhiteout path) (fun _ s => I s.root)
      (fun s => I s.root) := by
  refine Triple.attempt (onRoot_rooted (onUpper_rule fun lower => Triple.of_forall fun u hu => ?_))
  refine (Tree.removeFile_spec u (whiteoutPath path)).weaken (fun _ h => h) ?_
    (by rintro _ rfl; exact hu)
  rintro _ u' ⟨⟨c, hc⟩, hget⟩
  exact hI ⟨u, lower⟩ ⟨u', lower⟩ hu (by rw [Tree.hides, hc]; rfl) ⟨rfl, hget⟩

variable (hI : ∀ fs fs', I fs → Puts path fs fs' → I fs')

include hI

/-- The host's own `create` and `write`, past the overlay. -/
theorem copyWithReflink_puts (content : VfsResult Bytes) :
    Triple (fun s : Fuse Tree Tree => I s.root) (onUpperDir (copyWithReflink content path))
      (fun _ s => I s.root) (fun s => I s.root) := by
  refine onRoot_rooted (onUpper_rule fun lower => ?_)
  refine Triple.bind (R := fun _ u => I ⟨u, lower⟩) (Triple.ask (fun _ _ h _ => h) fun _ h => h)
    fun data => Triple.of_forall fun u hu => ?_
  refine Triple.bind_from (R := fun w u' => I ⟨u', lower⟩ ∧ w = ⟨path, 0⟩)
    ((Tree.createFile_spec u path).weaken (fun _ h => h) ?_ (by rintro _ rfl; exact hu)) ?_
  · rintro w u' ⟨rfl, hfree, hparent, hne, hget⟩
    exact ⟨hI ⟨u, lower⟩ ⟨u', lower⟩ hu (.write [] hne hfree hparent ⟨rfl, hget⟩), rfl⟩
  · rintro w u' ⟨hu', rfl⟩
    refine (Tree.writeAll_spec u' ⟨path, 0⟩ data).weaken (fun _ h => h) ?_
      (by rintro _ rfl; exact hu')
    rintro _ u'' ⟨c, hc, hget⟩
    refine hI ⟨u', lower⟩ ⟨u'', lower⟩ hu' (.write _ (Tree.ne_nil_of_file hc) ?_
      (Tree.get?_parent (Tree.ne_nil_of_file hc) hc) ⟨rfl, hget⟩)
    simp [hc]

theorem copyEntry_puts (layer : Tree) :
    Triple (fun s : Fuse Tree Tree => I s.root) (copyEntry layer path) (fun _ s => I s.root)
      (fun s => I s.root) := by
  unfold copyEntry
  cases symlinkMetadata layer path with
  | none => exact Triple.throw _ fun _ h => h
  | some m =>
    refine Triple.bind (makeParents_puts (keptByMkdir_of_puts hI).dropLast) fun _ => ?_
    cases m.kind with
    | symlink => exact Triple.throw _ fun _ h => h
    | regularFile => exact copyWithReflink_puts hI _
    | directory =>
      refine onRoot_rooted (onUpper_rule fun lower => Triple.of_forall fun u hu => ?_)
      refine (Tree.createDir_spec u path).weaken (fun _ h => h) ?_ (by rintro _ rfl; exact hu)
      rintro _ u' ⟨hnone, hparent, hne, hget⟩
      exact hI ⟨u, lower⟩ ⟨u', lower⟩ hu
        (.mkdir path (List.prefix_refl _) hne hnone hparent ⟨rfl, hget⟩)

theorem vfsCreateFile_puts :
    Triple I (VfsPath.createFile path) (fun w fs' => I fs' ∧ w.path = path) I :=
  Triple.bind (R := fun _ => I) (Triple.ask (fun _ _ h _ => h) fun _ h => h) fun _ =>
    createFile_keeps hI

theorem createIn_puts :
    Triple (fun s : Fuse Tree Tree => I s.root)
      (do let _ ← onRoot .eio (VfsPath.createFile path)) (fun _ s => I s.root)
      (fun s => I s.root) :=
  Triple.bind (onRoot_rooted (vfsCreateFile_puts hI)) fun _ => Triple.pure () fun _ h => h.1

theorem writeBack_puts (data : Bytes) :
    Triple (fun s : Fuse Tree Tree => I s.root) (writeBack path data) (fun _ s => I s.root)
      (fun s => I s.root) :=
  Triple.bind (onRoot_rooted (vfsCreateFile_puts hI)) fun w =>
    onRoot_rooted (writeAll_keeps hI w data)

omit hI in
/-- A path is copied only when some lower directory has it and the upper one has not. -/
theorem ensureInUpper_puts (hI : copied path fs = true → ∀ fs fs', I fs → Puts path fs fs' → I fs')
    (hfs : I fs) :
    Triple (fun s : Fuse Tree Tree => s.root = fs) (ensureInUpper path) (fun _ s => I s.root)
      (fun s => I s.root) := by
  refine Triple.of_forall fun s hs => ?_
  subst hs
  refine Triple.ask_from hfs fun there hthere => Triple.ite (fun _ => Triple.pure () ?_)
    fun hnew => Triple.ask_from hfs fun layer hlayer => ?_
  · rintro _ rfl
    exact hfs
  · have hputs := hI (copied_of_lowerSource (by rwa [Except.ok.inj hthere]) hlayer)
    exact from_start hfs (Triple.bind (copyEntry_puts hputs layer) fun _ =>
      dropWhiteout_puts (keptByUnmark_of_puts hputs))

omit hI

theorem changeXattr_puts (applied : Except Errno Unit) (hs : I s.root)
    (hI : ∀ x ∈ copies s ino, ∀ fs fs', I fs → Puts x fs fs' → I fs') :
    Triple (· = s) (changeXattr ino applied) (fun _ s' => I s'.root) (fun s' => I s'.root) := by
  refine pathOf_from hs fun path hpath => ?_
  refine Triple.bind ((ensureInUpper_puts (fun hc => hI path ?_) hs).weaken
    (by rintro _ rfl; rfl) (fun _ _ h => h) fun _ h => h) fun _ =>
      (Keeps.bind (Keeps.ask _) fun _ => Keeps.pure _).triple
  rw [copies, hpath, Option.filter_some, if_pos hc]
  rfl

theorem setattr_puts (attrs : SetAttr) (hs : I s.root)
    (hI : ∀ x ∈ writes s (.setattr ino attrs), ∀ fs fs', I fs → Puts x fs fs' → I fs') :
    Triple (· = s) (setattr ino attrs) (fun _ s' => I s'.root) (fun s' => I s'.root) := by
  refine pathOf_from hs fun path hpath => ?_
  have hattr : Triple (fun s' : Fuse Tree Tree => I s'.root)
      (do return .attr (← attrForPath ino path) : FuseM Tree Tree Reply)
      (fun _ s' => I s'.root) (fun s' => I s'.root) :=
    (Keeps.bind attrForPath_keeps fun _ => Keeps.pure _).triple
  by_cases hsize : attrs.size = some 0
  · -- the file is created, and whatever is copied after it goes to the same path
    have hputs := hI path (by simp [writes, hsize, hpath])
    refine from_start hs (Triple.bind (doIf_triple fun _ => createIn_puts hputs) fun _ =>
      Triple.bind (doIf_triple fun _ => ?_) fun _ => hattr)
    exact Triple.of_forall fun s' hs' => Triple.bind ((ensureInUpper_puts (fun _ => hputs)
      hs').weaken (by rintro _ rfl; rfl) (fun _ _ h => h) fun _ h => h) fun _ => (Keeps.ask _).triple
  · rw [doIf, if_neg (by simpa using hsize)]
    refine Triple.bind_from (R := fun _ s' => s' = s) (Triple.pure () fun _ h => h) ?_
    rintro _ _ rfl
    refine Triple.bind (R := fun _ s' => I s'.root) (Triple.ite (fun hneeds => ?_) fun _ => ?_)
      fun _ => hattr
    · refine Triple.bind ((ensureInUpper_puts (fun hc => hI path ?_) hs).weaken
        (by rintro _ rfl; rfl) (fun _ _ h => h) fun _ h => h) fun _ => (Keeps.ask _).triple
      simp [writes, hsize, hneeds, copies, hpath, hc]
    · exact Triple.pure () (by rintro _ rfl; exact hs)

/-- What survives the changes at the paths a request writes survives the request, if
that removes nothing. -/
theorem step_puts (hr : ¬ Removes r) (hs : I s.root)
    (hI : ∀ x ∈ writes s r, ∀ fs fs', I fs → Puts x fs fs' → I fs') : I (next s r).root := by
  have hstart : ∀ {x : FuseM Tree Tree Reply}, Keeps root x →
      Triple (· = s) x (fun _ s' => I s'.root) (fun s' => I s'.root) :=
    fun hx => from_start hs hx.triple
  suffices hstep : Triple (· = s) (step r) (fun _ s' => I s'.root) (fun s' => I s'.root) from
    hstep.finalState rfl
  cases r with
  | lookup parent name => exact hstart (lookup_keeps _ _)
  | getattr ino => exact hstart getattr_keeps
  | setattr ino attrs => exact setattr_puts attrs hs hI
  | readdir ino offset capacity => exact hstart (readdir_keeps _ _)
  | mkdir parent name =>
    refine childPath_from hs fun path hpath => failIf_from hs fun hnew => from_start hs ?_
    have hputs := hI path (by simp [writes, hpath, hnew])
    refine Triple.bind (onRoot_rooted (Q := fun _ => I) (Triple.bind (R := fun _ => I)
      (Triple.ask (fun _ _ h _ => h) fun _ h => h) fun _ =>
        createDir_keeps (keptByMkdir_of_puts hputs) (keptByUnmark_of_puts hputs))) fun _ => ?_
    -- the inode table is not part of the root
    exact (Keeps.bind internPath_keeps fun _ => Keeps.bind (attrNow_keeps _) fun _ =>
      Keeps.pure _).triple
  | rmdir parent name => exact absurd trivial hr
  | openInode ino flags backed => exact hstart (openInode_keeps _ _)
  | read fh offset size => exact hstart (read_keeps _ _)
  | write fh offset data => exact hstart (write_keeps _ _)
  | release fh =>
    refine fileOf_from hs fun file hfile => from_start hs ?_
    refine Triple.bind removeFile_keeps.triple fun _ => ?_
    cases file with
    | passthrough backing => exact (Keeps.pure _).triple
    | streaming reader => exact (Keeps.pure _).triple
    | buffered path data dirty writable =>
      -- only a dirty buffer is written back, and then `writes` has its path
      refine Triple.bind (doIf_triple fun hdirty => writeBack_puts (hI path ?_) data)
        fun _ => (Keeps.pure _).triple
      simp [writes, hfile, hdirty]
  | create parent name flags =>
    refine childPath_from hs fun path hpath => Triple.ask_from hs fun there hthere =>
      failIf_from hs fun _ => from_start hs ?_
    rw [Except.ok.injEq] at hthere
    refine Triple.bind (doIf_triple fun hc => createIn_puts (hI path ?_)) fun _ => ?_
    · rw [← hthere] at hc
      simp [writes, hpath, hc]
    · exact (Keeps.bind internPath_keeps fun _ => Keeps.bind (attrNow_keeps _) fun _ =>
        Keeps.bind allocFh_keeps fun _ => Keeps.bind (insertFile_keeps _) fun _ =>
          Keeps.pure _).triple
  | unlink parent name => exact absurd trivial hr
  | rename parent name newparent newname => exact absurd trivial hr
  | readlink ino => exact hstart readlink_keeps
  | symlink parent name link =>
    refine pathOf_from hs fun d hd => join_from hs (from_start hs ?_)
    have hputs := hI (d ++ [name]) (by simp [writes, childPath, hd])
    refine Triple.bind (dropWhiteout_puts (keptByUnmark_of_puts hputs)) fun _ => ?_
    refine Triple.bind (makeParents_puts ?_) fun _ => ?_
    · simpa using (keptByMkdir_of_puts hputs).dropLast
    · -- a tree has no links
      refine Triple.bind (onRoot_rooted (Q := fun _ => I) (onUpper_rule fun lower =>
        Triple.throw _ fun _ h => h)) fun _ => ?_
      exact (Keeps.bind internPath_keeps fun _ => Keeps.bind (attrNow_keeps _) fun _ =>
        Keeps.pure _).triple
  | setxattr ino applied | removexattr ino applied =>
    refine changeXattr_puts applied hs fun x hx => hI x ?_
    simpa [writes] using hx
  | fsync fh =>
    refine fileOf_from hs fun file hfile => from_start hs ?_
    cases file with
    | passthrough backing => exact (Keeps.pure _).triple
    | streaming reader => exact (Keeps.pure _).triple
    | buffered path data dirty writable =>
      refine Triple.bind (doIf_triple fun hdirty => Triple.bind (writeBack_puts (hI path ?_) data)
        fun _ => (insertFile_keeps _).triple) fun _ => (Keeps.pure _).triple
      simp [writes, hfile, hdirty]
  | flush => exact hstart (Keeps.pure _)

end Puts

/-! ### Where a path is found -/

section Found

variable {fs fs' : Stack} {p x : Path} {i : Nat}

/-- What is put at `x` does not come between the side-channel and the entry that it finds
at `p` in the layer `i`: there is no entry at `p` made above a lower layer, and no marker
of `p` and no marker that `p` itself is. -/
structure Apart (p : Path) (i : Nat) (x : Path) : Prop where
  notAbove : i ≠ 0 → ¬ p <+: x
  notMarked : ¬ whiteoutPath p <+: x
  notMarker : p ≠ whiteoutPath x

theorem physicalForWithLayer_congr (hlower : fs'.lower = fs.lower)
    (hmark : p ≠ [] → fs'.upper.get? (whiteoutPath p) = fs.upper.get? (whiteoutPath p))
    (hentry : (fs'.upper.get? p).isSome = (fs.upper.get? p).isSome) :
    physicalForWithLayer p fs' = physicalForWithLayer p fs := by
  have hwhiteout : whiteoutInUpper p fs'.upper = whiteoutInUpper p fs.upper := by
    rw [Bool.eq_iff_iff, whiteoutInUpper_iff, whiteoutInUpper_iff, Tree.isSome_symlinkMetadata,
      Tree.isSome_symlinkMetadata]
    exact and_congr_right fun hp => by rw [hmark hp]
  rw [physicalForWithLayer, physicalForWithLayer, hwhiteout, hlower, Tree.isSome_symlinkMetadata,
    Tree.isSome_symlinkMetadata, hentry]

theorem hides_of_physicalForWithLayer (h : physicalForWithLayer p fs = some i) (hp : p ≠ []) :
    fs.upper.hides p = false := by
  rw [physicalForWithLayer] at h
  split at h
  · cases h
  · rename_i hmark
    rw [whiteoutInUpper_iff, Tree.isSome_symlinkMetadata] at hmark
    exact Bool.eq_false_of_not_eq_true fun hides => hmark ⟨hp, hides⟩

theorem le_of_firstWithEntry {layers : List Tree} {j : Nat}
    (h : firstWithEntry p j layers = some i) : j ≤ i := by
  induction layers generalizing j with
  | nil => cases h
  | cons layer rest ih =>
    rw [firstWithEntry] at h
    split at h
    · exact (Option.some.inj h).le
    · exact (Nat.le_succ j).trans (ih h)

theorem isSome_iff_of_physicalForWithLayer (h : physicalForWithLayer p fs = some i) :
    (fs.upper.get? p).isSome ↔ i = 0 := by
  rw [physicalForWithLayer, Tree.isSome_symlinkMetadata] at h
  split at h
  · cases h
  · split at h
    · rename_i hentry
      cases h
      exact iff_of_true hentry rfl
    · rename_i hentry
      refine iff_of_false hentry ?_
      rintro rfl
      -- the lower layers are counted from 1 on
      exact Nat.not_succ_le_zero 0 (le_of_firstWithEntry h)

theorem physicalForWithLayer_puts (h : Puts x fs fs') (hapart : Apart p i x)
    (hp : physicalForWithLayer p fs = some i) : physicalForWithLayer p fs' = some i := by
  rw [← hp]
  cases h with
  | mkdir q hq hne hnone hparent h =>
    have hpq : p ≠ q := by
      rintro rfl
      by_cases hi : i = 0
      · have hsome := (isSome_iff_of_physicalForWithLayer hp).mpr hi
        rw [hnone] at hsome
        cases hsome
      · exact hapart.notAbove hi hq
    refine physicalForWithLayer_congr h.lower (fun _ => h.get?_of_ne ?_) (by rw [h.get?_of_ne hpq])
    rintro rfl
    exact hapart.notMarked hq
  -- the marker that goes is not that of `p`, which would have been hidden
  | unmark hmark h =>
    refine physicalForWithLayer_congr h.lower (fun hne => h.get?_of_ne ?_)
      (by rw [h.get?_of_ne hapart.notMarker])
    intro he
    have hides := hides_of_physicalForWithLayer hp hne
    rw [Tree.hides, he] at hides
    rw [Tree.hides, hides] at hmark
    cases hmark
  | write c hne hfree hparent h =>
    refine physicalForWithLayer_congr h.lower (fun _ => h.get?_of_ne ?_) ?_
    · rintro rfl
      exact hapart.notMarked (List.prefix_refl _)
    · by_cases hpx : p = x
      · subst hpx
        rw [h.get?_self, (isSome_iff_of_physicalForWithLayer hp).mpr]
        · rfl
        · by_contra hi
          exact hapart.notAbove hi (List.prefix_refl _)
      · rw [h.get?_of_ne hpx]

end Found

/-! ### Opening with a backing file -/

theorem of_update_eq_some {α β : Type} [DecidableEq α] {f : α → Option β} {a x : α}
    {o : Option β} {y : β} (h : Function.update f a o x = some y) :
    f x = some y ∨ x = a ∧ o = some y := by
  by_cases hx : x = a
  · subst hx
    rw [Function.update_self] at h
    exact Or.inr ⟨rfl, h⟩
  · rw [Function.update_of_ne hx] at h
    exact Or.inl h

section Opening

variable {υ ℓ : Type} [PhysicalFS υ] [PhysicalFS ℓ] {s : Fuse υ ℓ} {ino : Ino} {path : Path}
  {fh : Fh} {b : BackingId}

/-- A backing file that an open file holds. -/
def Held (s : Fuse υ ℓ) (b : BackingId) : Prop := ∃ fh, s.openFiles fh = some (.passthrough b)

omit [PhysicalFS υ] [PhysicalFS ℓ] in
theorem held_of_live (h : s.live b = true) : Held s b := by
  obtain ⟨fh, -, hfile⟩ := List.any_eq_true.mp h
  split at hfile
  · rename_i b' hopen
    exact ⟨fh, by rw [hopen, of_decide_eq_true hfile]⟩
  · cases hfile

/-- The backing file of an open: one that is held already, or the file that the
side-channel finds now. -/
def Backs (s : Fuse υ ℓ) (ino : Ino) (path : Path) (b : BackingId) : Prop :=
  (s.backingCache ino = some b ∧ Held s b) ∨
    (b.path = path ∧ physicalForWithLayer path s.root = some b.layer)

theorem openBacking_backs (backed : Bool) :
    Triple (· = s) (openBacking ino path backed)
      (fun backing s' => (∀ b, backing = some b → Backs s ino path b) ∧
        s'.openFiles = s.openFiles ∧ ∀ ino' b, s'.backingCache ino' = some b →
          s.backingCache ino' = some b ∨ ino' = ino ∧ b.path = path) (fun _ => False) := by
  rintro s rfl
  rw [run_openBacking]
  cases hlayer : physicalForWithLayer path s.root with
  | none => exact ⟨nofun, rfl, fun _ _ h => Or.inl h⟩
  | some layer =>
    dsimp only
    split
    · exact ⟨nofun, rfl, fun _ _ h => Or.inl h⟩
    · cases hshared : (s.backingCache ino).filter s.live with
      -- an id that another handle holds is given out again
      | some shared =>
        obtain ⟨hcache, hlive⟩ := Option.filter_eq_some_iff.mp hshared
        refine ⟨?_, rfl, fun _ _ h => Or.inl h⟩
        rintro b ⟨⟩
        exact Or.inl ⟨hcache, held_of_live hlive⟩
      | none =>
        dsimp only
        split
        · refine ⟨?_, rfl, fun ino' b h => ?_⟩
          · rintro b ⟨⟩
            exact Or.inr ⟨rfl, hlayer⟩
          · rcases of_update_eq_some h with h | ⟨rfl, ⟨⟩⟩
            · exact Or.inl h
            · exact Or.inr ⟨rfl, rfl⟩
        · exact ⟨nofun, rfl, fun _ _ h => Or.inl h⟩

/-- What is cached after an open was cached before, or is of the path of its inode. -/
def CacheFrom (s s' : Fuse υ ℓ) : Prop :=
  ∀ ino b, s'.backingCache ino = some b → s.backingCache ino = some b ∨ s.inodes ino = some b.path

/-- What is held after an open was held before, or is what it replied. -/
def HeldFrom (s : Fuse υ ℓ) (reply : Reply) (s' : Fuse υ ℓ) : Prop :=
  ∀ fh b, s'.openFiles fh = some (.passthrough b) →
    s.openFiles fh = some (.passthrough b) ∨ reply = .openedPassthrough fh b

theorem openReadOnly_backs (backed : Bool) (hino : s.inodes ino = some path) :
    Triple (· = s) (openReadOnly ino path backed fh)
      (fun reply s' => CacheFrom s s' ∧ HeldFrom s reply s' ∧
        ∀ fh' b, reply = .openedPassthrough fh' b → Backs s ino path b)
      (fun s' => CacheFrom s s' ∧ s'.openFiles = s.openFiles) := by
  refine Triple.bind_from ((openBacking_backs backed).weaken (fun _ h => h) (fun _ _ h => h)
    fun _ => False.elim) ?_
  rintro backing s₁ ⟨hbacks, hfiles, hcache⟩
  have hfrom : CacheFrom s s₁ := by
    intro ino' b h
    refine (hcache ino' b h).imp_right ?_
    rintro ⟨rfl, hb⟩
    rw [hino, hb]
  cases backing with
  | some b =>
    refine Triple.bind (R := fun _ s' => CacheFrom s s' ∧
      s'.openFiles = Function.update s.openFiles fh (some (.passthrough b))) (Triple.modify ?_)
      fun _ => Triple.pure _ ?_
    · rintro _ rfl
      exact ⟨hfrom, by rw [hfiles]⟩
    · rintro s' ⟨hfrom', hopen⟩
      refine ⟨hfrom', fun fh' b' h => ?_, ?_⟩
      · rw [hopen] at h
        rcases of_update_eq_some h with h | ⟨rfl, hb⟩
        · exact Or.inl h
        · cases hb
          exact Or.inr rfl
      · rintro fh' b' ⟨⟩
        exact hbacks b rfl
  | none =>
    -- what is left only asks, until the reader goes in
    have hkeep : ∀ {β : Type} {x : FuseM υ ℓ β},
        Keeps (fun s : Fuse υ ℓ => (s.backingCache, s.openFiles)) x →
        Triple (fun s' => CacheFrom s s' ∧ s'.openFiles = s.openFiles) x
          (fun _ s' => CacheFrom s s' ∧ s'.openFiles = s.openFiles)
          (fun s' => CacheFrom s s' ∧ s'.openFiles = s.openFiles) := fun hx =>
      hx.triple (I := fun t : (Ino → Option BackingId) × (Fh → Option OpenFile) =>
        (∀ ino b, t.1 ino = some b →
          s.backingCache ino = some b ∨ s.inodes ino = some b.path) ∧ t.2 = s.openFiles)
    refine Triple.weaken (P := fun s' => CacheFrom s s' ∧ s'.openFiles = s.openFiles)
      (Triple.bind (hkeep (failIf_keeps _ _)) fun _ =>
        Triple.bind (hkeep (onRoot_ask_keeps _)) fun reader =>
          Triple.bind (R := fun _ s' => CacheFrom s s' ∧ s'.openFiles =
            Function.update s.openFiles fh (some (.streaming reader))) (Triple.modify ?_)
            fun _ => Triple.pure _ ?_) (by rintro _ rfl; exact ⟨hfrom, hfiles⟩)
      (fun _ _ h => h) fun _ h => h
    · rintro s' ⟨hfrom', hopen⟩
      exact ⟨hfrom', by rw [hopen]⟩
    · rintro s' ⟨hfrom', hopen⟩
      refine ⟨hfrom', fun fh' b' h => ?_, nofun⟩
      rw [hopen] at h
      rcases of_update_eq_some h with h | ⟨-, hb⟩
      · exact Or.inl h
      · cases hb

theorem openInode_backs (flags : OpenFlags) (backed : Bool) :
    Triple (· = s) (openInode ino flags backed)
      (fun reply s' => CacheFrom s s' ∧ HeldFrom s reply s' ∧
        ∀ fh b, reply = .openedPassthrough fh b →
          ∃ path, s.inodes ino = some path ∧ Backs s ino path b)
      (fun s' => CacheFrom s s' ∧ s'.openFiles = s.openFiles) := by
  refine pathOf_from ⟨fun _ _ h => Or.inl h, rfl⟩ fun path hino => ?_
  refine Triple.bind_from (R := fun _ s' => s' = { s with nextFh := s.nextFh + 1 })
    (by rintro _ rfl; rfl) ?_
  rintro fh _ rfl
  refine Triple.ite (fun _ => ?_) fun _ => ?_
  · -- a buffer is no backing file
    have hsame : CacheFrom s { s with nextFh := s.nextFh + 1 } ∧ s.openFiles = s.openFiles :=
      ⟨fun _ _ h => Or.inl h, rfl⟩
    refine failIf_from hsame fun _ => Triple.ask_from hsame fun data _ =>
      Triple.bind (R := fun _ s' => s' = { s with
        nextFh := s.nextFh + 1
        openFiles := Function.update s.openFiles fh (some (.buffered path data false true)) })
        (Triple.modify (by rintro _ rfl; rfl)) fun _ => Triple.pure _ ?_
    rintro _ rfl
    refine ⟨fun _ _ h => Or.inl h, fun fh' b h => ?_, nofun⟩
    rcases of_update_eq_some h with h | ⟨-, ⟨⟩⟩
    exact Or.inl h
  · exact (openReadOnly_backs (s := { s with nextFh := s.nextFh + 1 }) backed hino).weaken
      (fun _ h => h) (fun _ _ h => ⟨h.1, h.2.1, fun fh b hb => ⟨path, hino, h.2.2 fh b hb⟩⟩)
      fun _ h => h

end Opening

/-! ### Every request -/

section Requests

variable {υ ℓ : Type}

/-- The open files and the registered backing files. -/
def backings (s : Fuse υ ℓ) : (Fh → Option OpenFile) × (Ino → Option BackingId) :=
  (s.openFiles, s.backingCache)

instance : RootFree (backings : Fuse υ ℓ → _) := ⟨fun _ _ => rfl⟩
instance : TablesFree (backings : Fuse υ ℓ → _) := ⟨fun _ _ _ _ => rfl⟩

/-- No backing file is held that was not held before, and none is registered. -/
def NoNewBacking (s s' : Fuse υ ℓ) : Prop :=
  (∀ fh b, s'.openFiles fh = some (.passthrough b) → s.openFiles fh = some (.passthrough b)) ∧
    s'.backingCache = s.backingCache

variable {s : Fuse υ ℓ} {fh : Fh} {E : Fuse υ ℓ → Prop} {r : Request}

/-- A change of one handle that registers no backing file. -/
theorem update_noNewBacking {o : Option OpenFile} (h : ∀ b, o ≠ some (.passthrough b)) :
    Triple (NoNewBacking s)
      (modify fun s => { s with openFiles := Function.update s.openFiles fh o } : FuseM υ ℓ Unit)
      (fun _ => NoNewBacking s) E := by
  refine Triple.modify fun s' hs => ⟨fun fh' b hb => ?_, hs.2⟩
  rcases of_update_eq_some hb with hb | ⟨-, hb⟩
  · exact hs.1 fh' b hb
  · exact absurd hb (h b)

variable [PhysicalFS υ] [PhysicalFS ℓ]

/-- Only opening a file registers a backing file. -/
theorem step_noNewBacking (hr : ∀ ino flags backed, r ≠ .openInode ino flags backed) :
    NoNewBacking s (next s r) := by
  have hkeep : ∀ {β : Type} {x : FuseM υ ℓ β}, Keeps backings x →
      Triple (NoNewBacking s) x (fun _ => NoNewBacking s) (NoNewBacking s) := fun hx =>
    hx.triple (I := fun t : (Fh → Option OpenFile) × (Ino → Option BackingId) =>
      (∀ fh b, t.1 fh = some (.passthrough b) → s.openFiles fh = some (.passthrough b)) ∧
        t.2 = s.backingCache)
  suffices hstep : Triple (NoNewBacking s) (step r : FuseM υ ℓ Reply) (fun _ => NoNewBacking s)
      (NoNewBacking s) from hstep.finalState ⟨fun _ _ h => h, rfl⟩
  cases r with
  | lookup parent name => exact hkeep (lookup_keeps _ _)
  | getattr ino => exact hkeep getattr_keeps
  | setattr ino attrs => exact hkeep (setattr_keeps _)
  | readdir ino offset capacity => exact hkeep (readdir_keeps _ _)
  | mkdir parent name => exact hkeep (mkdir_keeps _ _)
  | rmdir parent name => exact hkeep (rmdir_keeps _ _)
  | openInode ino flags backed => exact absurd rfl (hr ino flags backed)
  | read fh offset size => exact hkeep (read_keeps _ _)
  | write fh offset data =>
    -- what is put back under the handle is a buffer again
    refine Triple.bind (hkeep fileOf_keeps) fun file => ?_
    cases file with
    | passthrough backing => exact Triple.throw _ fun _ h => h
    | streaming reader => exact Triple.throw _ fun _ h => h
    | buffered path buf dirty writable =>
      exact Triple.bind (hkeep (failIf_keeps _ _)) fun _ =>
        Triple.bind (update_noNewBacking nofun) fun _ => Triple.pure _ fun _ h => h
  | release fh =>
    refine Triple.bind (hkeep fileOf_keeps) fun file =>
      Triple.bind (update_noNewBacking nofun) fun _ => ?_
    cases file with
    | passthrough backing => exact Triple.pure _ fun _ h => h
    | streaming reader => exact Triple.pure _ fun _ h => h
    | buffered path data dirty writable =>
      exact Triple.bind (hkeep (doIf_keeps (writeBack_keeps data))) fun _ =>
        Triple.pure _ fun _ h => h
  | create parent name flags =>
    exact Triple.bind (hkeep pathOf_keeps) fun _ => Triple.bind (hkeep (join_keeps _ _)) fun _ =>
      Triple.bind (hkeep (Keeps.ask _)) fun _ => Triple.bind (hkeep (failIf_keeps _ _)) fun _ =>
        Triple.bind (hkeep (createIn_keeps _)) fun _ => Triple.bind (hkeep internPath_keeps) fun _ =>
          Triple.bind (hkeep (attrNow_keeps _)) fun _ =>
            Triple.bind (R := fun _ => NoNewBacking s) (fun _ hs => hs) fun _ =>
              Triple.bind (update_noNewBacking nofun) fun _ => Triple.pure _ fun _ h => h
  | unlink parent name => exact hkeep (unlink_keeps _ _)
  | rename parent name newparent newname => exact hkeep (rename_keeps _ _ _ _)
  | readlink ino => exact hkeep readlink_keeps
  | symlink parent name link => exact hkeep (symlink_keeps _ _ _)
  | setxattr ino applied => exact hkeep (changeXattr_keeps _)
  | removexattr ino applied => exact hkeep (changeXattr_keeps _)
  | fsync fh =>
    refine Triple.bind (hkeep fileOf_keeps) fun file => ?_
    cases file with
    | passthrough backing => exact Triple.pure _ fun _ h => h
    | streaming reader => exact Triple.pure _ fun _ h => h
    | buffered path data dirty writable =>
      refine Triple.bind (R := fun _ => NoNewBacking s) (Triple.ite (fun _ => ?_)
        fun _ => Triple.pure _ fun _ h => h) fun _ => Triple.pure _ fun _ h => h
      exact Triple.bind (hkeep (writeBack_keeps data)) fun _ => update_noNewBacking nofun
  | flush => exact hkeep (Keeps.pure _)

end Requests

/-! ### Runs -/

section Run

variable {s : Fuse Tree Tree} {ino : Ino} {fh : Fh} {b : BackingId} {flags : OpenFlags}
  {backed : Bool} {r : Request} {rs : List Request} {p : Path} {data : Bytes}

/-- Every open file that the kernel reads itself is the one that the side-channel finds,
and what is registered for an inode is of its path. -/
structure Backed (s : Fuse Tree Tree) : Prop where
  sound : Sound (tables s)
  held : ∀ fh b, s.openFiles fh = some (.passthrough b) →
    physicalForWithLayer b.path s.root = some b.layer
  cached : ∀ ino b, s.backingCache ino = some b → s.inodes ino = some b.path

/-- The request writes nothing that comes between the side-channel and a file that the
kernel reads itself. -/
def Undisturbed (s : Fuse Tree Tree) (r : Request) : Prop :=
  ∀ x ∈ writes s r, ∀ fh b, s.openFiles fh = some (.passthrough b) → Apart b.path b.layer x

theorem backed_new (root : Stack) (verifiedLayers : List Bool) (frames : Nat) :
    Backed (new root verifiedLayers frames) :=
  ⟨sound_new root verifiedLayers frames, nofun, nofun⟩

namespace Backed

/-- The backing file of an open is the one that the side-channel finds. -/
theorem of_backs (h : Backed s) (hino : s.inodes ino = some p) (hb : Backs s ino p b) :
    p = b.path ∧ physicalForWithLayer b.path s.root = some b.layer := by
  obtain ⟨hcache, fh', hheld⟩ | ⟨rfl, hlayer⟩ := hb
  · exact ⟨Option.some.inj (hino.symm.trans (h.cached ino b hcache)), h.held fh' b hheld⟩
  · exact ⟨rfl, hlayer⟩

theorem opened (h : Backed s)
    (hok : respond s (.openInode ino flags backed) = .ok (.openedPassthrough fh b)) :
    s.inodes ino = some b.path ∧ physicalForWithLayer b.path s.root = some b.layer := by
  obtain ⟨-, -, hreply⟩ := next_of_ok (openInode_backs flags backed) hok
  obtain ⟨path, hino, hb⟩ := hreply fh b rfl
  obtain ⟨rfl, hlayer⟩ := h.of_backs hino hb
  exact ⟨hino, hlayer⟩

theorem step_open (h : Backed s) : Backed (next s (.openInode ino flags backed)) := by
  have hroot : (next s (.openInode ino flags backed)).root = s.root :=
    (openInode_keeps (g := root) flags backed).finalState s
  have htables : tables (next s (.openInode ino flags backed)) = tables s :=
    (openInode_keeps (g := tables) flags backed).finalState s
  -- what is held afterwards was held before or backs this open, on both exits
  have hopen : Triple (· = s) (openInode ino flags backed)
      (fun _ s' => CacheFrom s s' ∧ ∀ fh b, s'.openFiles fh = some (.passthrough b) →
        physicalForWithLayer b.path s.root = some b.layer)
      (fun s' => CacheFrom s s' ∧ ∀ fh b, s'.openFiles fh = some (.passthrough b) →
        physicalForWithLayer b.path s.root = some b.layer) := by
    refine (openInode_backs flags backed).weaken (fun _ h => h) ?_ ?_
    · rintro reply s' ⟨hcache, hheld, hreply⟩
      refine ⟨hcache, fun fh b hb => ?_⟩
      rcases hheld fh b hb with hb | hb
      · exact h.held fh b hb
      · obtain ⟨path, hino, hb⟩ := hreply fh b hb
        exact (h.of_backs hino hb).2
    · rintro s' ⟨hcache, hfiles⟩
      exact ⟨hcache, fun fh b hb => h.held fh b (by rwa [← hfiles])⟩
  obtain ⟨hcache, hheld⟩ := hopen.finalState rfl
  have hinodes : (next s (.openInode ino flags backed)).inodes = s.inodes :=
    congrArg Interned.key htables
  refine ⟨by rw [htables]; exact h.sound, fun fh b hb => ?_, fun ino' b hb => ?_⟩
  · rw [hroot]
    exact hheld fh b hb
  · rw [hinodes]
    exact (hcache ino' b hb).elim (h.cached ino' b) id

theorem step (h : Backed s) (hr : ¬ Removes r) (hundisturbed : Undisturbed s r) :
    Backed (next s r) := by
  by_cases hopen : ∃ ino flags backed, r = .openInode ino flags backed
  · obtain ⟨ino, flags, backed, rfl⟩ := hopen
    exact h.step_open
  · obtain ⟨hheld, hcache⟩ := step_noNewBacking (s := s) (r := r) fun ino flags backed he =>
      hopen ⟨ino, flags, backed, he⟩
    have hrenames : ∀ src dst, renames s r ≠ some (src, dst) := by
      intro src dst he
      cases r <;> simp [renames, Removes] at he hr
    have hunbinds : ∀ path, unbinds s r ≠ some path := by
      intro path he
      cases r <;> simp [unbinds, Removes] at he hr
    refine ⟨h.sound.step fun src dst he => absurd he (hrenames src dst), fun fh b hb => ?_, ?_⟩
    · exact step_puts (I := fun fs => physicalForWithLayer b.path fs = some b.layer) hr
        (h.held fh b (hheld fh b hb)) fun x hx fs fs' hfs hputs =>
          physicalForWithLayer_puts hputs (hundisturbed x hx fh b (hheld fh b hb)) hfs
    · intro ino b hb
      rw [hcache] at hb
      exact key_kept h.sound (h.cached ino b hb) (hunbinds _) fun dst => hrenames _ dst

end Backed

theorem Backed.run (h : Backed s)
    (hrs : EachStep next (fun s r => ¬ Removes r ∧ Undisturbed s r) s rs) : Backed (run s rs) :=
  hrs.invariant (fun _ _ h hr => h.step hr.1 hr.2) h

/-- What the kernel reads through a backing file. -/
def backingContent (fs : Stack) (b : BackingId) : VfsResult Bytes :=
  match b.layer with
  | 0 => fileContent fs.upper b.path
  | i + 1 => match fs.lower[i]? with
    | some layer => fileContent layer b.path
    | none => .error .fileNotFound

/-- A request that writes nothing leaves the layers. -/
theorem root_of_writes_eq_nil (h : writes s r = []) : (next s r).root = s.root := by
  have hnone : ∀ x, x ∉ writes s r := by simp [h]
  have hsurvives : Survives (· = s.root.upper) (· = s.root.upper) s r :=
    ⟨fun _ h => h, fun x hx => absurd hx (hnone x),
      fun x hx => absurd (mem_writes_of_mem_creates hx) (hnone x), fun x hx => absurd hx (hnone x),
      fun _ x hx => absurd hx (hnone x), fun _ x hx => absurd hx (hnone x)⟩
  have hstacked : Stacked (· = s.root.upper) s.root.lower (next s r).root :=
    (step_stacked hsurvives rfl).finalState rfl
  obtain ⟨hupper, hlower⟩ := hstacked
  rw [show (next s r).root = ⟨(next s r).root.upper, (next s r).root.lower⟩ from rfl, hupper, hlower]

theorem root_of_silent (h : EachStep next (fun s r => writes s r = []) s rs) :
    (run s rs).root = s.root :=
  h.invariant (I := fun s' => s'.root = s.root) (fun _ _ hs' hr =>
    (root_of_writes_eq_nil hr).trans hs') rfl

theorem writeBack_placed {fs : Stack} :
    Triple (fun s : Fuse Tree Tree => s.root = fs) (writeBack p data)
      (fun _ s => Placed fs s.root p (.file data)) (fun _ => True) := by
  refine Triple.bind (onRoot_rooted (I := (· = fs))
    (Triple.ask_from trivial fun _ _ => createFile_spec fs p)) fun w => onRoot_rooted
      (I := fun fs' => w = ⟨p, 0⟩ ∧ Placed fs fs' p (.file []))
      (Q := fun _ fs' => Placed fs fs' p (.file data)) (E := fun _ => True) ?_
  refine Triple.of_forall fun fs' ⟨hw, hplaced⟩ => ?_
  subst hw
  have hwrite := hplaced.writeAll 0 data
  rwa [splice_nil] at hwrite

/-- After a changed file was written back the side-channel finds it in the upper layer. -/
theorem placed_of_released {w : Bool} {reply : Reply}
    (hfile : s.openFiles fh = some (.buffered p data true w))
    (hok : respond s (.release fh) = .ok reply) :
    Placed s.root (next s (.release fh)).root p (.file data) := by
  have hrelease : Triple (· = s) (release fh)
      (fun _ s' => Placed s.root s'.root p (.file data)) (fun _ => True) := by
    refine fileOf_from trivial fun file hfile' => ?_
    cases hfile.symm.trans hfile'
    refine Triple.bind (R := fun _ s' => s'.root = s.root)
      ((removeFile_keeps.triple (I := fun root => root = s.root)).weaken (by rintro _ rfl; rfl)
        (fun _ _ h => h) fun _ _ => trivial) fun _ => ?_
    exact Triple.bind writeBack_placed fun _ => Triple.pure _ fun _ h => h
  exact next_of_ok hrelease hok

/-- The file that was placed is found in the upper layer, and the kernel reads it. -/
theorem backingContent_of_placed {fs fs' : Stack} (h : Placed fs fs' b.path (.file data))
    (hlayer : physicalForWithLayer b.path fs' = some b.layer) :
    backingContent fs' b = .ok data := by
  have hupper : b.layer = 0 := by
    rw [← isSome_iff_of_physicalForWithLayer hlayer, h.entry]
    rfl
  rw [backingContent, hupper]
  change contentAt fs'.upper b.path = _
  rw [Tree.contentAt_eq, h.entry]
  rfl

/-- Over a run in which nothing is written between the side-channel and a file that the
kernel reads itself, each open that is answered with a backing file gets the file that the
side-channel finds then; so after a release has written a file back, an open gets what was
written, as long as nothing else is. -/
theorem passthrough_close_to_open (root : Stack) (verifiedLayers : List Bool) (frames : Nat)
    (rs : List Request) (hremoves : ∀ r ∈ rs, ¬ Removes r)
    (hrs : EachStep next Undisturbed (new root verifiedLayers frames) rs) :
    (∀ rs₁ ino flags backed rs₂ fh b, rs = rs₁ ++ .openInode ino flags backed :: rs₂ →
      respond (run (new root verifiedLayers frames) rs₁) (.openInode ino flags backed) =
        .ok (.openedPassthrough fh b) →
      (run (new root verifiedLayers frames) rs₁).inodes ino = some b.path ∧
        physicalForWithLayer b.path (run (new root verifiedLayers frames) rs₁).root =
          some b.layer) ∧
    ∀ rs₁ fh rs₂ ino flags backed rs₃ p data w reply fh' b,
      rs = rs₁ ++ .release fh :: rs₂ ++ .openInode ino flags backed :: rs₃ →
      (run (new root verifiedLayers frames) rs₁).openFiles fh = some (.buffered p data true w) →
      respond (run (new root verifiedLayers frames) rs₁) (.release fh) = .ok reply →
      EachStep next (fun s r => writes s r = [])
        (next (run (new root verifiedLayers frames) rs₁) (.release fh)) rs₂ →
      (run (new root verifiedLayers frames) (rs₁ ++ .release fh :: rs₂)).inodes ino = some p →
      respond (run (new root verifiedLayers frames) (rs₁ ++ .release fh :: rs₂))
        (.openInode ino flags backed) = .ok (.openedPassthrough fh' b) →
      backingContent (run (new root verifiedLayers frames) (rs₁ ++ .release fh :: rs₂)).root b =
        .ok data := by
  have hsafe : EachStep next (fun s r => ¬ Removes r ∧ Undisturbed s r)
      (new root verifiedLayers frames) rs := (EachStep.of_forall hremoves).and hrs
  have hopen : ∀ rs₁ ino flags backed rs₂ fh b, rs = rs₁ ++ .openInode ino flags backed :: rs₂ →
      respond (run (new root verifiedLayers frames) rs₁) (.openInode ino flags backed) =
        .ok (.openedPassthrough fh b) →
      (run (new root verifiedLayers frames) rs₁).inodes ino = some b.path ∧
        physicalForWithLayer b.path (run (new root verifiedLayers frames) rs₁).root =
          some b.layer := by
    rintro rs₁ ino flags backed rs₂ fh b rfl hok
    exact ((backed_new root verifiedLayers frames).run (eachStep_append.mp hsafe).1).opened hok
  refine ⟨hopen, ?_⟩
  intro rs₁ fh rs₂ ino flags backed rs₃ p data w reply fh' b he hfile hok hsilent hino hreply
  obtain ⟨hpath, hlayer⟩ := hopen _ _ _ _ _ _ _ he hreply
  obtain rfl : b.path = p := Option.some.inj (hpath.symm.trans hino)
  have hplaced := placed_of_released hfile hok
  -- what the release placed is still there at the open
  have hroot : (run (new root verifiedLayers frames) (rs₁ ++ .release fh :: rs₂)).root =
      (next (run (new root verifiedLayers frames) rs₁) (.release fh)).root := by
    rw [run, List.foldl_append]
    exact root_of_silent hsilent
  rw [hroot] at hlayer ⊢
  exact backingContent_of_placed hplaced hlayer

theorem undisturbed_of_silent (h : writes s r = []) : Undisturbed s r := by
  intro x hx
  rw [h] at hx
  cases hx

/-- One file, below an empty upper layer. -/
def lowerFileMount : Fuse Tree Tree :=
  new ⟨Tree.empty, [Tree.ofEntries [(["f".toList], .file [1])]]⟩ [] 8

/-- A reader opens the file, and keeps it open while a writer rewrites it. -/
def rewriteWhileRead : List Request :=
  [.lookup rootIno "f".toList, .openInode 2 ⟨.readOnly, false, false⟩ true,
    .openInode 2 ⟨.readWrite, false, false⟩ true, .write 2 0 [2], .release 2]

theorem passthrough_close_to_open_upperFile :
    backingContent (run oneFile rewriteWhileRead).root ⟨0, 0, ["f".toList]⟩ = .ok [2] := by
  refine (passthrough_close_to_open _ _ _
    (rewriteWhileRead ++ [.openInode 2 ⟨.readOnly, false, false⟩ true]) ?_ ?_).2
    [.lookup rootIno "f".toList, .openInode 2 ⟨.readOnly, false, false⟩ true,
      .openInode 2 ⟨.readWrite, false, false⟩ true, .write 2 0 [2]] 2 [] 2
    ⟨.readOnly, false, false⟩ true [] ["f".toList] [2] true .ok 3 ⟨0, 0, ["f".toList]⟩
    rfl rfl rfl trivial rfl rfl
  · simp [rewriteWhileRead, Removes]
  · refine ⟨undisturbed_of_silent rfl, undisturbed_of_silent rfl, undisturbed_of_silent rfl,
      undisturbed_of_silent rfl, ?_, undisturbed_of_silent rfl, trivial⟩
    -- the release writes to the file that the reader has open, which is in the upper layer
    intro x hx fh b hb
    obtain rfl : x = ["f".toList] := List.mem_singleton.mp hx
    rcases of_update_eq_some hb with hb | ⟨-, ⟨⟩⟩
    rcases of_update_eq_some hb with hb | ⟨-, ⟨⟩⟩
    rcases of_update_eq_some hb with hb | ⟨-, hb⟩
    · cases hb
    · cases hb
      exact ⟨fun h => absurd rfl h, by decide, by decide⟩

/-- A reader that opens the file after the release is given the lower file, which an older
reader still holds. -/
theorem stale_passthrough_lowerFile :
    let s := run lowerFileMount rewriteWhileRead
    respond (run lowerFileMount (rewriteWhileRead.take 4)) (.release 2) = .ok .ok ∧
    respond s (.openInode 2 ⟨.readOnly, false, false⟩ true) =
      .ok (.openedPassthrough 3 ⟨0, 1, ["f".toList]⟩) ∧
    physicalForWithLayer ["f".toList] s.root = some 0 ∧
    contentAt s.root ["f".toList] = .ok [2] ∧
    backingContent s.root ⟨0, 1, ["f".toList]⟩ = .ok [1] :=
  ⟨rfl, rfl, rfl, rfl, rfl⟩

end Run

end Fuse

end Rspacefs
