import Rspacefs.Lib.Follows
import Rspacefs.Fuse.Passive

/-!
# Other files behind some handles

Only requests on a handle look at the buffer behind it. So a state in which some buffers
differ goes through any other request as the state does in which they do not: the reply
is the same, and so is every part of the state but these buffers.

## Main definitions

* `overlaid` — a state with other files behind some handles
* `handle` — the handle a request is on

## Main results

* `step_follows_overlaid` — a request on none of these handles does the same in both states
-/

namespace Rspacefs

open Lib

variable {υ ℓ α β γ : Type} {s : Fuse υ ℓ} {path : Path} {ino : Ino} {fh : Fh}
  {h : Fh → Option OpenFile}

/-- A writable handle, with its buffer in memory. -/
def OpenFile.IsBuffered : OpenFile → Prop
  | .buffered .. => True
  | _ => False

instance : DecidablePred OpenFile.IsBuffered
  | .buffered .. => isTrue True.intro
  | .passthrough _ | .streaming _ => isFalse id

namespace Fuse

/-- The state with other files behind some handles. -/
def overlaid (h : Fh → Option OpenFile) (s : Fuse υ ℓ) : Fuse υ ℓ :=
  { s with openFiles := fun fh => (h fh).or (s.openFiles fh) }

/-- The handle a request is on. -/
def handle : Request → Option Fh
  | .read fh _ _ | .write fh _ _ | .release fh | .fsync fh => some fh
  | _ => none

/-- The other files are buffers where buffers are open, and behind handles given out. -/
structure Fits (h : Fh → Option OpenFile) (t : (Fh → Option OpenFile) × Fh) : Prop where
  issued : ∀ fh, (h fh).isSome → fh < t.2
  buffered : ∀ fh file, h fh = some file →
    file.IsBuffered ∧ ∃ file', t.1 fh = some file' ∧ file'.IsBuffered

theorem Fits.alloc {t t' : (Fh → Option OpenFile) × Fh} (hfits : Fits h t)
    (ht : t' = (t.1, t.2 + 1)) : Fits h t' := by
  subst ht
  exact ⟨fun fh hfh => Nat.lt_succ_of_lt (hfits.issued fh hfh), hfits.buffered⟩

theorem overlaid_openFiles (fh : Fh) : (overlaid h s).openFiles fh = (h fh).or (s.openFiles fh) := rfl

theorem overlaid_openFiles_of_none (hfh : h fh = none) : (overlaid h s).openFiles fh = s.openFiles fh := by
  rw [overlaid_openFiles, hfh, Option.none_or]

/-- Changing the file behind another handle. -/
theorem overlaid_update (hfh : h fh = none) (file : Option OpenFile) :
    (fun fh' => (h fh').or (Function.update s.openFiles fh file fh')) =
      Function.update (overlaid h s).openFiles fh file := by
  funext fh'
  by_cases heq : fh' = fh
  · subst heq
    rw [Function.update_self, Function.update_self, hfh, Option.none_or]
  · rw [Function.update_of_ne heq, Function.update_of_ne heq]
    rfl

/-- One more handle with another file. -/
theorem overlaid_update_some (fh : Fh) (file : OpenFile) :
    overlaid (Function.update h fh (some file)) s =
      { overlaid h s with openFiles := Function.update (overlaid h s).openFiles fh (some file) } := by
  refine congrArg (fun t => { s with openFiles := t }) (funext fun fh' => ?_)
  by_cases heq : fh' = fh
  · subst heq
    rw [Function.update_self, Function.update_self, Option.some_or]
  · rw [Function.update_of_ne heq, Function.update_of_ne heq, overlaid_openFiles]

/-- The state may as well have the other file itself. -/
theorem overlaid_update_none {file : OpenFile} (hfh : h fh = some file) :
    overlaid (Function.update h fh none)
      { s with openFiles := Function.update s.openFiles fh (some file) } = overlaid h s := by
  refine congrArg (fun t => { s with openFiles := t }) (funext fun fh' => ?_)
  change (Function.update h fh none fh').or (Function.update s.openFiles fh (some file) fh') = _
  by_cases heq : fh' = fh
  · subst heq
    rw [Function.update_self, Function.update_self, Option.none_or, hfh, Option.some_or]
  · rw [Function.update_of_ne heq, Function.update_of_ne heq]

/-- A backing file is held by a handle in both states or in neither. -/
theorem live_overlaid (hfits : Fits h (files s)) (backing : BackingId) :
    live (overlaid h s) backing = live s backing := by
  refine congrArg (List.any _) (funext fun fh => ?_)
  rw [overlaid_openFiles]
  cases hfh : h fh with
  | none => rw [Option.none_or]
  | some file =>
    obtain ⟨hfile, file', hopen, hfile'⟩ := hfits.buffered fh file hfh
    rw [Option.some_or, show s.openFiles fh = some file' from hopen]
    -- neither is a passthrough handle
    cases file <;> cases file' <;> first | rfl | exact hfile.elim | exact hfile'.elim

/-! ### The parts of a handler -/

section Parts

theorem pathOf_commutes : Commutes (overlaid h) (pathOf ino : FuseM υ ℓ Path) :=
  Commutes.ask fun _ => rfl

theorem join_commutes (parent : Path) (name : Name) :
    Commutes (overlaid h) (join parent name : FuseM υ ℓ Path) :=
  Commutes.ite (Commutes.pure _) (Commutes.throw _)

theorem failIf_commutes {e : Errno} {c : Fuse υ ℓ → Bool} (hc : ∀ s, c (overlaid h s) = c s) :
    Commutes (overlaid h) (failIf e c) :=
  Commutes.ask fun s => by rw [hc]

theorem doIf_commutes {c : Bool} {x : FuseM υ ℓ Unit} (hx : Commutes (overlaid h) x) :
    Commutes (overlaid h) (doIf c x) :=
  Commutes.ite hx (Commutes.pure _)

theorem onRoot_commutes {errno : Errno} (x : VfsM (LayerFS υ ℓ) α) :
    Commutes (overlaid h) (onRoot errno x) :=
  Commutes.onPart _ (fun _ => rfl) fun _ _ => rfl

theorem internPath_commutes : Commutes (overlaid h) (internPath path : FuseM υ ℓ Ino) := by
  intro s
  have hpaths : (overlaid h s).paths path = s.paths path := rfl
  unfold Follows
  rw [run_internPath, run_internPath, hpaths]
  cases s.paths path <;> exact ⟨_, rfl, rfl⟩

theorem unbind_commutes : Commutes (overlaid h) (unbind path : FuseM υ ℓ Unit) := by
  refine Commutes.modify fun s => ?_
  have hpaths : (overlaid h s).paths path = s.paths path := rfl
  rw [hpaths]
  cases s.paths path <;> rfl

theorem rebind_commutes (src dst : Path) : Commutes (overlaid h) (rebind src dst : FuseM υ ℓ Unit) := by
  refine Commutes.modify fun s => ?_
  have hpaths : (overlaid h s).paths src = s.paths src := rfl
  rw [hpaths]
  cases s.paths src <;> rfl

theorem fileOf_commutes (hfh : h fh = none) :
    Commutes (overlaid h) (fileOf fh : FuseM υ ℓ OpenFile) :=
  Commutes.ask fun s => by rw [overlaid_openFiles_of_none hfh]

theorem insertFile_commutes (hfh : h fh = none) (file : OpenFile) :
    Commutes (overlaid h) (insertFile fh file : FuseM υ ℓ Unit) :=
  Commutes.modify fun s => by
    unfold overlaid
    rw [overlaid_update hfh]
    rfl

theorem removeFile_commutes (hfh : h fh = none) :
    Commutes (overlaid h) (removeFile fh : FuseM υ ℓ Unit) :=
  Commutes.modify fun s => by
    unfold overlaid
    rw [overlaid_update hfh]
    rfl

end Parts

/-! ### Handlers on open files -/

theorem read_commutes (hfh : h fh = none) (offset size : Nat) :
    Commutes (overlaid h) (read fh offset size : FuseM υ ℓ Reply) := by
  refine Commutes.bind (fileOf_commutes hfh) fun file => ?_
  cases file with
  | passthrough backing => exact Commutes.throw _
  | streaming reader =>
    dsimp only
    split
    · exact Commutes.pure _
    · exact Commutes.throw _
  | buffered path data dirty writable => exact Commutes.pure _

theorem write_commutes (hfh : h fh = none) (offset : Nat) (data : Bytes) :
    Commutes (overlaid h) (write fh offset data : FuseM υ ℓ Reply) := by
  refine Commutes.bind (fileOf_commutes hfh) fun file => ?_
  cases file with
  | passthrough backing => exact Commutes.throw _
  | streaming reader => exact Commutes.throw _
  | buffered path buf dirty writable =>
    exact Commutes.bind (failIf_commutes fun _ => rfl) fun _ =>
      Commutes.bind (insertFile_commutes hfh _) fun _ => Commutes.pure _

/-- A new handle is none of those with another file. -/
theorem allocFh_follows {f g : Fh → FuseM υ ℓ β} (hfits : Fits h (files s))
    (hnew : ∀ s', files s' = ((files s).1, s.nextFh + 1) → h s.nextFh = none →
      Follows (overlaid h) Eq (f s.nextFh) (g s.nextFh) s') :
    Follows (overlaid h) Eq (allocFh >>= f) (allocFh >>= g) s := by
  refine hnew { s with nextFh := s.nextFh + 1 } rfl ?_
  cases hfile : h s.nextFh with
  | none => rfl
  | some file => exact absurd (hfits.issued s.nextFh (by rw [hfile]; rfl)) (Nat.lt_irrefl _)

section Handlers

variable [PhysicalFS υ]

theorem dropWhiteout_commutes : Commutes (overlaid h) (dropWhiteout path : FuseM υ ℓ Unit) :=
  Commutes.attempt (onRoot_commutes _)

variable [PhysicalFS ℓ]

theorem attrNow_commutes (ft : VfsFileType) :
    Commutes (overlaid h) (attrNow ino path ft : FuseM υ ℓ FileAttr) :=
  Commutes.ask fun _ => rfl

theorem attrForPath_commutes : Commutes (overlaid h) (attrForPath ino path : FuseM υ ℓ FileAttr) :=
  Commutes.bind (failIf_commutes fun _ => rfl) fun _ => attrNow_commutes _

/-! ### Handlers that only look -/

theorem lookup_commutes (parent : Ino) (name : Name) :
    Commutes (overlaid h) (lookup parent name : FuseM υ ℓ Reply) :=
  Commutes.bind pathOf_commutes fun _ => Commutes.bind (join_commutes _ _) fun _ =>
    Commutes.bind (failIf_commutes fun _ => rfl) fun _ => Commutes.bind internPath_commutes fun _ =>
      Commutes.bind (attrNow_commutes _) fun _ => Commutes.pure _

theorem getattr_commutes : Commutes (overlaid h) (getattr ino : FuseM υ ℓ Reply) :=
  Commutes.bind pathOf_commutes fun _ => Commutes.bind attrForPath_commutes fun _ =>
    Commutes.pure _

theorem listEntries_commutes (names : List Name) :
    Commutes (overlaid h) (listEntries path names : FuseM υ ℓ (List (Ino × FileKind × Name))) := by
  induction names with
  | nil => exact Commutes.pure _
  | cons name names ih =>
    exact Commutes.bind (Commutes.ask fun _ => rfl) fun _ => Commutes.bind internPath_commutes fun _ =>
      Commutes.bind ih fun _ => Commutes.pure _

theorem readdir_commutes (offset capacity : Nat) :
    Commutes (overlaid h) (readdir ino offset capacity : FuseM υ ℓ Reply) :=
  Commutes.bind pathOf_commutes fun _ => Commutes.bind (onRoot_commutes _) fun _ =>
    Commutes.bind (Commutes.ask fun _ => rfl) fun _ =>
      Commutes.bind (listEntries_commutes _) fun _ => Commutes.pure _

theorem readlink_commutes : Commutes (overlaid h) (readlink ino : FuseM υ ℓ Reply) :=
  Commutes.bind pathOf_commutes fun _ => Commutes.ask fun _ => rfl

/-! ### Handlers that change the overlay -/

theorem writeBack_commutes (data : Bytes) :
    Commutes (overlaid h) (writeBack path data : FuseM υ ℓ Unit) :=
  Commutes.bind (onRoot_commutes _) fun _ => onRoot_commutes _

theorem createIn_commutes (c : Bool) : Commutes (overlaid h)
    (doIf c do let _ ← onRoot .eio (VfsPath.createFile path) : FuseM υ ℓ Unit) :=
  doIf_commutes (Commutes.bind (onRoot_commutes _) fun _ => Commutes.pure _)

theorem copyEntry_commutes (layer : ℓ) :
    Commutes (overlaid h) (copyEntry layer path : FuseM υ ℓ Unit) := by
  unfold copyEntry
  split
  · exact Commutes.throw _
  · refine Commutes.bind (onRoot_commutes _) fun _ => ?_
    split
    · split
      · exact onRoot_commutes _
      · exact Commutes.throw _
    · exact onRoot_commutes _
    · exact onRoot_commutes _

theorem ensureInUpper_commutes : Commutes (overlaid h) (ensureInUpper path : FuseM υ ℓ Unit) :=
  Commutes.bind (Commutes.ask fun _ => rfl) fun _ => Commutes.ite (Commutes.pure _)
    (Commutes.bind (Commutes.ask fun _ => rfl) fun _ =>
      Commutes.bind (copyEntry_commutes _) fun _ => dropWhiteout_commutes)

theorem setattr_commutes (attrs : SetAttr) :
    Commutes (overlaid h) (setattr ino attrs : FuseM υ ℓ Reply) :=
  Commutes.bind pathOf_commutes fun _ => Commutes.bind (createIn_commutes _) fun _ =>
    Commutes.bind (doIf_commutes (Commutes.bind ensureInUpper_commutes fun _ =>
      Commutes.ask fun _ => rfl)) fun _ =>
        Commutes.bind attrForPath_commutes fun _ => Commutes.pure _

theorem changeXattr_commutes (applied : Except Errno Unit) :
    Commutes (overlaid h) (changeXattr ino applied : FuseM υ ℓ Reply) :=
  Commutes.bind pathOf_commutes fun _ => Commutes.bind ensureInUpper_commutes fun _ =>
    Commutes.bind (Commutes.ask fun _ => rfl) fun _ => Commutes.pure _

theorem mkdir_commutes (parent : Ino) (name : Name) :
    Commutes (overlaid h) (mkdir parent name : FuseM υ ℓ Reply) :=
  Commutes.bind pathOf_commutes fun _ => Commutes.bind (join_commutes _ _) fun _ =>
    Commutes.bind (failIf_commutes fun _ => rfl) fun _ => Commutes.bind (onRoot_commutes _) fun _ =>
      Commutes.bind internPath_commutes fun _ => Commutes.bind (attrNow_commutes _) fun _ =>
        Commutes.pure _

theorem rmdir_commutes (parent : Ino) (name : Name) :
    Commutes (overlaid h) (rmdir parent name : FuseM υ ℓ Reply) :=
  Commutes.bind pathOf_commutes fun _ => Commutes.bind (join_commutes _ _) fun _ =>
    Commutes.bind (failIf_commutes fun _ => rfl) fun _ => Commutes.bind (onRoot_commutes _) fun _ =>
      Commutes.bind unbind_commutes fun _ => Commutes.pure _

theorem unlink_commutes (parent : Ino) (name : Name) :
    Commutes (overlaid h) (unlink parent name : FuseM υ ℓ Reply) :=
  Commutes.bind pathOf_commutes fun _ => Commutes.bind (join_commutes _ _) fun _ =>
    Commutes.bind (failIf_commutes fun _ => rfl) fun _ => Commutes.bind (onRoot_commutes _) fun _ =>
      Commutes.bind unbind_commutes fun _ => Commutes.pure _

theorem rename_commutes (parent : Ino) (name : Name) (newparent : Ino) (newname : Name) :
    Commutes (overlaid h) (rename parent name newparent newname : FuseM υ ℓ Reply) :=
  Commutes.bind pathOf_commutes fun _ => Commutes.bind pathOf_commutes fun _ =>
    Commutes.bind (join_commutes _ _) fun _ => Commutes.bind (join_commutes _ _) fun _ =>
      Commutes.bind (Commutes.ask fun _ => rfl) fun _ =>
        Commutes.bind (Commutes.ask fun _ => rfl) fun _ =>
          Commutes.bind (onRoot_commutes _) fun _ =>
            Commutes.bind (rebind_commutes _ _) fun _ => Commutes.pure _

theorem symlink_commutes (parent : Ino) (name : Name) (link : Target) :
    Commutes (overlaid h) (symlink parent name link : FuseM υ ℓ Reply) :=
  Commutes.bind pathOf_commutes fun _ => Commutes.bind (join_commutes _ _) fun _ =>
    Commutes.bind dropWhiteout_commutes fun _ => Commutes.bind (onRoot_commutes _) fun _ =>
      Commutes.bind (onRoot_commutes _) fun _ => Commutes.bind internPath_commutes fun _ =>
        Commutes.bind (attrNow_commutes _) fun _ => Commutes.pure _

theorem release_commutes (hfh : h fh = none) :
    Commutes (overlaid h) (release fh : FuseM υ ℓ Reply) := by
  refine Commutes.bind (fileOf_commutes hfh) fun file =>
    Commutes.bind (removeFile_commutes hfh) fun _ => ?_
  cases file with
  | passthrough backing => exact Commutes.pure _
  | streaming reader => exact Commutes.pure _
  | buffered path data dirty writable =>
    exact Commutes.bind (doIf_commutes (writeBack_commutes data)) fun _ => Commutes.pure _

theorem fsync_commutes (hfh : h fh = none) : Commutes (overlaid h) (fsync fh : FuseM υ ℓ Reply) := by
  refine Commutes.bind (fileOf_commutes hfh) fun file => ?_
  cases file with
  | passthrough backing => exact Commutes.pure _
  | streaming reader => exact Commutes.pure _
  | buffered path data dirty writable =>
    exact Commutes.bind (doIf_commutes (Commutes.bind (writeBack_commutes data) fun _ =>
      insertFile_commutes hfh _)) fun _ => Commutes.pure _

/-! ### Opening -/

theorem openBuffered_commutes (hfh : h fh = none) (flags : OpenFlags) :
    Commutes (overlaid h) (openBuffered path flags fh : FuseM υ ℓ Reply) :=
  Commutes.bind (failIf_commutes fun _ => rfl) fun _ =>
    Commutes.bind (Commutes.ask fun _ => rfl) fun _ =>
      Commutes.bind (insertFile_commutes hfh _) fun _ => Commutes.pure _

theorem openBacking_follows (hfits : Fits h (files s)) (backed : Bool) :
    Follows (overlaid h) Eq (openBacking ino path backed) (openBacking ino path backed) s := by
  have hlive : (overlaid h s).live = s.live := funext (live_overlaid hfits)
  have hcache : ((overlaid h s).backingCache ino).filter (overlaid h s).live =
      (s.backingCache ino).filter s.live := by rw [hlive]; rfl
  unfold Follows
  rw [run_openBacking, run_openBacking, hcache, show (overlaid h s).root = s.root from rfl,
    show (overlaid h s).verifiedLayers = s.verifiedLayers from rfl]
  cases physicalForWithLayer path s.root with
  | none => exact ⟨_, rfl, rfl⟩
  | some layer =>
    by_cases hverified : s.verifiedLayers.getD layer false
    · simp only [if_pos hverified]
      exact ⟨_, rfl, rfl⟩
    · simp only [if_neg hverified]
      cases (s.backingCache ino).filter s.live with
      | some backing => exact ⟨_, rfl, rfl⟩
      | none => cases backed <;> exact ⟨_, rfl, rfl⟩

theorem openReadOnly_follows (hfits : Fits h (files s)) (hfh : h fh = none) (backed : Bool) :
    Follows (overlaid h) Eq (openReadOnly ino path backed fh) (openReadOnly ino path backed fh) s := by
  refine Follows.bind (openBacking_follows hfits backed) ?_
  intro backing _ s' _ heq
  subst heq
  cases backing with
  | some backing =>
    exact (Commutes.bind (insertFile_commutes hfh _) fun _ => Commutes.pure _) s'
  | none =>
    exact (Commutes.bind (failIf_commutes fun _ => rfl) fun _ =>
      Commutes.bind (onRoot_commutes _) fun _ =>
        Commutes.bind (insertFile_commutes hfh _) fun _ => Commutes.pure _) s'

theorem openInode_follows (hfits : Fits h (files s)) (flags : OpenFlags) (backed : Bool) :
    Follows (overlaid h) Eq (openInode ino flags backed) (openInode ino flags backed) s := by
  refine Commutes.bind_keeps pathOf_commutes (pathOf_keeps (g := files)) fun path s hs => ?_
  refine allocFh_follows (hs ▸ hfits) fun s' hs' hfh => Follows.ite (fun _ => ?_) fun _ => ?_
  · exact openBuffered_commutes hfh flags s'
  · exact openReadOnly_follows (hfits.alloc (hs'.trans (by rw [← hs]; rfl))) hfh backed

theorem create_follows (hfits : Fits h (files s)) (parent : Ino) (name : Name)
    (flags : OpenFlags) :
    Follows (overlaid h) Eq (create parent name flags) (create parent name flags) s := by
  refine Commutes.bind_keeps pathOf_commutes (pathOf_keeps (g := files)) fun d s₁ hs₁ => ?_
  refine Commutes.bind_keeps (join_commutes _ _) (join_keeps (g := files) _ _) fun path s₂ hs₂ => ?_
  refine Commutes.bind_keeps (Commutes.ask fun _ => rfl) (Keeps.ask (g := files) _)
    fun there s₃ hs₃ => ?_
  refine Commutes.bind_keeps (failIf_commutes fun _ => rfl) (failIf_keeps (g := files) _ _)
    fun _ s₄ hs₄ => ?_
  refine Commutes.bind_keeps (createIn_commutes _) (createIn_keeps (g := files) _)
    fun _ s₅ hs₅ => ?_
  refine Commutes.bind_keeps internPath_commutes (internPath_keeps (g := files))
    fun ino s₆ hs₆ => ?_
  refine Commutes.bind_keeps (attrNow_commutes _) (attrNow_keeps (g := files) _)
    fun attr s₇ hs₇ => ?_
  have hfiles : files s₇ = files s := by rw [hs₇, hs₆, hs₅, hs₄, hs₃, hs₂, hs₁]
  exact allocFh_follows (hfiles ▸ hfits) fun s' _ hfh =>
    (Commutes.bind (insertFile_commutes hfh _) fun _ => Commutes.pure _) s'

/-- A request on none of the handles does the same whatever files are behind them. -/
theorem step_follows_overlaid {r : Request} (hfits : Fits h (files s))
    (hr : ∀ fh, handle r = some fh → h fh = none) :
    Follows (overlaid h) Eq (step r) (step r) s := by
  cases r with
  | lookup parent name => exact lookup_commutes _ _ s
  | getattr ino => exact getattr_commutes s
  | setattr ino attrs => exact setattr_commutes _ s
  | readdir ino offset capacity => exact readdir_commutes _ _ s
  | mkdir parent name => exact mkdir_commutes _ _ s
  | rmdir parent name => exact rmdir_commutes _ _ s
  | openInode ino flags backed => exact openInode_follows hfits _ _
  | read fh offset size => exact read_commutes (hr fh rfl) _ _ s
  | write fh offset data => exact write_commutes (hr fh rfl) _ _ s
  | release fh => exact release_commutes (hr fh rfl) s
  | create parent name flags => exact create_follows hfits _ _ _
  | unlink parent name => exact unlink_commutes _ _ s
  | rename parent name newparent newname => exact rename_commutes _ _ _ _ s
  | readlink ino => exact readlink_commutes s
  | symlink parent name link => exact symlink_commutes _ _ _ s
  | setxattr ino applied | removexattr ino applied => exact changeXattr_commutes _ s
  | fsync fh => exact fsync_commutes (hr fh rfl) s
  | flush => exact Commutes.pure _ s

/-- The states a request ends in. -/
theorem next_overlaid {r : Request} (hfits : Fits h (files s))
    (hr : ∀ fh, handle r = some fh → h fh = none) : next (overlaid h s) r = overlaid h (next s r) :=
  (step_follows_overlaid hfits hr).finalState

/-- The replies. -/
theorem respond_overlaid {r : Request} (hfits : Fits h (files s))
    (hr : ∀ fh, handle r = some fh → h fh = none) : respond (overlaid h s) r = respond s r := by
  have hstep := step_follows_overlaid hfits hr
  unfold Follows at hstep
  unfold respond
  cases hrun : (step r).run s with
  | ok reply s' =>
    rw [hrun] at hstep
    obtain ⟨reply', hover, rfl⟩ := hstep
    rw [hover]
  | error e s' =>
    rw [hrun] at hstep
    rw [show (step r).run (overlaid h s) = .error e (overlaid h s') from hstep]

end Handlers

end Fuse

end Rspacefs
