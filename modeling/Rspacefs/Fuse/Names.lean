import Rspacefs.Fuse.Gone
import Rspacefs.Fuse.Touch

/-!
# Names that are gone and names that moved

A handle keeps the path it was opened at, and `release` and `fsync` write a dirty
buffer back to that path, whatever `unlink` and `rename` did to it in between. So an
unlinked file comes back, and a write after a rename goes to the old name. This file
says when that does not happen: `Spares p s r` is what a request `r` must be like for
the entry at `p`, or its absence, to be still there afterwards, and a path that was
unlinked stays absent through every run of such requests.

## Main definitions

* `Spares` — a request that does not reach a path
* `Gone` — how a path is absent
* `runs` — the states a run of requests goes through

## Main results

* `step_held` — what stands at a spared path stays
* `unlinked_stays_gone` — a path that was unlinked stays absent
* `renamed_keeps_buffer` — a renamed file has the content of a clean handle
-/

namespace Rspacefs

open Lib LayerFS

variable {υ ℓ : Type} [PhysicalFS υ] [PhysicalFS ℓ] {s : Fuse υ ℓ} {p q x y z : Path}
  {r : Request} {d : Bytes} {fh : Fh} {reply : Reply} {rs : List Request}

namespace Fuse

/-- The request does not reach the path `p`: wherever it may change an entry is a
client's path, reached through no link, and neither `p` nor below it, and where it may
create a file no link stands. A request that renames a directory or plants a link must
not do so above `p` either. -/
structure Spares (p : Path) (s : Fuse υ ℓ) (r : Request) : Prop where
  plain : ∀ x ∈ writes s r, PlainPath x
  straight : ∀ x ∈ writes s r, Straight s.root.upper (whiteoutPath x)
  noLink : ∀ x ∈ creates s r, kindAt s.root.upper x ≠ some .symlink
  aside : ∀ x ∈ writes s r, ¬ p <+: x
  above : RenamesDir s r ∨ PlantsLink s r → ∀ x ∈ writes s r, ¬ x <+: p
  within : RenamesDir s r → ∀ x ∈ writes s r, ∀ y, Straight s.root.upper (x ++ y)

/-- The paths above or at which a request may call the upper directory. -/
inductive Near (s : Fuse υ ℓ) (r : Request) : Path → Prop
  | above (x y : Path) : x ∈ writes s r → y <+: x.dropLast → Near s r y
  | file (x : Path) : x ∈ creates s r → Near s r x
  | marker (x : Path) : x ∈ writes s r → Near s r (whiteoutPath x)
  | below (x y : Path) : x ∈ writes s r → RenamesDir s r → Near s r (x ++ y)

theorem isPrefix_of_whiteoutPath (h : x <+: whiteoutPath y) (hx : PlainPath x) : x <+: y.dropLast := by
  rcases List.prefix_concat_iff.mp h with h | h
  · exact absurd h hx.unmarked.ne_whiteoutPath
  · exact h

theorem Near.straight (hr : Spares p s r) (hy : Near s r y) : Straight s.root.upper y := by
  cases hy with
  | above x y hx hyx => exact (hr.straight x hx).marker.of_isPrefix hyx
  | file x hx =>
    intro q hq hne
    by_cases hqx : q = y
    · exact hqx ▸ hr.noLink _ hx
    · exact (hr.straight _ (mem_writes_of_mem_creates hx)).marker q
        (prefix_dropLast_of_ne hq hqx) hne
  | marker x hx => exact hr.straight x hx
  | below x y hx hdir => exact hr.within hdir x hx y

/-! ### What a request calls and what it spares -/

/-- Neither a spared path nor its marker is a written path or above one. -/
theorem Spares.ne_upTo (hr : Spares p s r) (hx : x ∈ writes s r) (hy : y <+: x)
    (hz : z = p ∨ z = whiteoutPath p) : z ≠ y := by
  rcases hz with rfl | rfl
  · rintro rfl
    exact hr.aside x hx hy
  · exact (((hr.plain x hx).of_isPrefix hy).unmarked.ne_whiteoutPath).symm

theorem Spares.ne_marker (hp : PlainPath p) (hr : Spares p s r) (hx : x ∈ writes s r)
    (hz : z = p ∨ z = whiteoutPath p) : z ≠ whiteoutPath x := by
  rcases hz with rfl | rfl
  · exact hp.unmarked.ne_whiteoutPath
  · intro h
    obtain rfl := hp.unmarked.whiteoutPath_inj (hr.plain x hx).unmarked h
    exact hr.aside p hx (List.prefix_refl p)

theorem Spares.ne_below (hr : Spares p s r) (hx : x ∈ writes s r) (hdir : RenamesDir s r)
    (hz : z = p ∨ z = whiteoutPath p) : z ≠ x ++ y := by
  have habove := hr.above (Or.inl hdir) x hx
  rcases hz with rfl | rfl
  · rintro rfl
    exact habove (List.prefix_append x y)
  · intro h
    have hmark : x <+: whiteoutPath p := h ▸ List.prefix_append x y
    exact habove ((isPrefix_of_whiteoutPath hmark (hr.plain x hx)).trans (List.dropLast_prefix p))

/-- The markers of the paths a request may write at: straight also after a link was
planted. -/
def Markers (s : Fuse υ ℓ) (r : Request) (y : Path) : Prop := ∃ x ∈ writes s r, y = whiteoutPath x

theorem eq_of_plantsLink (h : PlantsLink s r) (hx : x ∈ writes s r) (hy : y ∈ writes s r) :
    x = y := by
  cases r <;> simp only [PlantsLink] at h <;> simp only [writes, Option.mem_toList] at hx hy
  case setattr ino attrs =>
    rw [if_neg h.1, if_pos h.2.1, Option.mem_toList] at hx hy
    exact Option.some.inj (hx.symm.trans hy)
  all_goals exact Option.some.inj (hx.symm.trans hy)

/-! ### A handle that is not written to -/

/-- The handle was opened at `p`: it has the content `d`, was written to, or is closed. -/
def Tracks (fh : Fh) (p : Path) (d : Bytes) (t : (Fh → Option OpenFile) × Fh) : Prop :=
  fh < t.2 ∧ ∀ file, t.1 fh = some file →
    (∃ w, file = .buffered p d false w) ∨ ∃ data w, file = .buffered p data true w

omit [PhysicalFS υ] [PhysicalFS ℓ] in
theorem Tracks.of_update {f : Option OpenFile} (h : Tracks fh p d (files s))
    (hf : ∀ file, f = some file →
      (∃ w, file = .buffered p d false w) ∨ ∃ data w, file = .buffered p data true w) :
    Tracks fh p d (Function.update s.openFiles fh f, s.nextFh) :=
  ⟨h.1, fun file hfile => hf file ((Function.update_self fh f s.openFiles).symm.trans hfile)⟩

/-- A request that spares `p` writes no handle back that was opened at `p`. -/
theorem Tracks.step (h : Tracks fh p d (files s)) (hr : Spares p s r) :
    Tracks fh p d (files (next s r)) := by
  by_cases hon : OnHandle fh r
  swap
  · have hframe : Has fh (s.openFiles fh) (next s r) := openFiles_frame ⟨rfl, h.1⟩ hon
    exact ⟨hframe.2, fun file hfile => h.2 file (hframe.1.symm.trans hfile)⟩
  have hkeep : ∀ {α : Type} {x : FuseM υ ℓ α}, Keeps files x → ∀ s', Tracks fh p d (files s') →
      Triple (· = s') x (fun _ s => Tracks fh p d (files s)) (fun s => Tracks fh p d (files s)) :=
    fun hx s' hs' => hx.triple.weaken (by rintro _ rfl; exact hs') (fun _ _ h => h) fun _ h => h
  suffices hstep : Triple (· = s) (Fuse.step r) (fun _ s' => Tracks fh p d (files s'))
      (fun s' => Tracks fh p d (files s')) from hstep.finalState rfl
  cases r <;> simp only [OnHandle] at hon
  case write fh' offset data =>
    subst hon
    refine fileOf_from h fun file hfile => ?_
    obtain ⟨w, rfl⟩ | ⟨old, w, rfl⟩ := h.2 file hfile
    all_goals
      refine failIf_from h fun _ => Triple.bind (R := fun _ s' => Tracks fh' p d (files s'))
        (Triple.modify ?_) fun _ => Triple.pure _ fun _ h => h
      rintro _ rfl
      exact h.of_update fun file hfile => Or.inr ⟨_, w, (Option.some.inj hfile).symm⟩
  case release fh' =>
    subst hon
    refine fileOf_from h fun file hfile =>
      Triple.bind (R := fun _ s' => Tracks fh' p d (files s')) (Triple.modify ?_) fun _ => ?_
    · rintro _ rfl
      exact h.of_update fun file hfile => by cases hfile
    · cases file with
      | passthrough backing => exact (Keeps.pure _).triple
      | streaming reader => exact (Keeps.pure _).triple
      | buffered path data dirty writable =>
        exact (Keeps.bind (doIf_keeps (writeBack_keeps data)) fun _ => Keeps.pure _).triple
  case fsync fh' =>
    subst hon
    refine fileOf_from h fun file hfile => ?_
    obtain ⟨w, rfl⟩ | ⟨data, w, rfl⟩ := h.2 file hfile
    · exact hkeep (Keeps.pure _) s h
    · -- a dirty handle would be written back to `p`
      exact absurd (List.prefix_refl p) (hr.aside p (by simp [writes, hfile]))

/-- A handle that can be released and spares `p` is clean. -/
theorem Tracks.release (h : Tracks fh p d (files s)) (hr : Spares p s (.release fh))
    (hok : respond s (.release fh) = .ok reply) :
    ∃ w, s.openFiles fh = some (.buffered p d false w) := by
  cases hfile : s.openFiles fh with
  | none =>
    have hnone : Triple (· = s) (Fuse.step (.release fh)) (fun _ _ => False) (fun _ => True) := by
      refine fileOf_from trivial fun file hfile' => ?_
      rw [hfile] at hfile'
      cases hfile'
    exact (next_of_ok hnone hok).elim
  | some file =>
    obtain ⟨w, rfl⟩ | ⟨data, w, rfl⟩ := h.2 file hfile
    · exact ⟨w, rfl⟩
    · exact absurd (List.prefix_refl p) (hr.aside p (by simp [writes, hfile]))

/-! ### What a request keeps -/

variable [LocalPhysicalFS υ] {Held : Path → Prop} {u₀ : υ}

/-- The calls of a request near `x` keep what is held away from it. -/
theorem keptNear_near (hp : PlainPath p) (hr : Spares p s r)
    (hheld : ∀ z, Held z → z = p ∨ z = whiteoutPath p) (hx : x ∈ writes s r) :
    KeptNear (Kept (Near s r) Held u₀) x where
  marker := keptAt_kept (.marker x hx) fun z hz => hr.ne_marker hp hx (hheld z hz)
  upTo _ hy := keptName_kept (fun _ hu => hu.free _ (.above x _ hx (dropLast_prefix_dropLast hy)))
    fun z hz => hr.ne_upTo hx hy (hheld z hz)

theorem keptBelow_near (hp : PlainPath p) (hr : Spares p s r)
    (hheld : ∀ z, Held z → z = p ∨ z = whiteoutPath p) (hx : x ∈ writes s r)
    (hdir : RenamesDir s r) : KeptBelow (Kept (Near s r) Held u₀) x := by
  have hbelow : ∀ y, KeptAt (Kept (Near s r) Held u₀) (x ++ y) := fun y =>
    keptAt_kept (.below x y hx hdir) fun z hz => hr.ne_below hx hdir (hheld z hz)
  refine fun t _ => ⟨⟨?_, fun y hy => ?_⟩, hbelow t⟩
  · rcases List.eq_nil_or_concat' t with rfl | ⟨t, n, rfl⟩
    · simpa using (keptNear_near hp hr hheld hx).marker
    · rw [← List.append_assoc, whiteoutPath_concat, List.append_assoc]
      exact hbelow _
  · rcases List.prefix_or_prefix_of_prefix hy (List.prefix_append x t) with hy | ⟨t', rfl⟩
    · exact (keptNear_near hp hr hheld hx).upTo y hy
    · exact (hbelow t').toKeptName

theorem symlink_kept (hp : PlainPath p) (hr : Spares p s r)
    (hheld : ∀ z, Held z → z = p ∨ z = whiteoutPath p) (hlink : PlantsLink s r)
    (hx : x ∈ writes s r) (t : Target) :
    Triple (Kept (Near s r) Held u₀) (PhysicalFS.symlink t x)
      (fun _ => Kept (Markers s r) Held u₀) (Kept (Markers s r) Held u₀) := by
  have habove : ¬ x <+: p := hr.above (Or.inr hlink) x hx
  have hplain := hr.plain x hx
  have hne : x ≠ [] := by
    rintro rfl
    exact habove (List.nil_prefix)
  -- neither what is held nor the marker of `x` lies below the new link
  have hheld' : ∀ z, Held z → ¬ x <+: z := by
    intro z hz hxz
    rcases hheld z hz with rfl | rfl
    · exact habove hxz
    · exact habove ((isPrefix_of_whiteoutPath hxz hplain).trans (List.dropLast_prefix p))
  have hmark : ¬ x <+: whiteoutPath x := fun h =>
    not_prefix_dropLast hne (isPrefix_of_whiteoutPath h hplain)
  refine Triple.of_forall fun u hu => ?_
  have hafter : ∀ u', (∀ y, Straight u y → ¬ x <+: y → SameAt u u' y) →
      Kept (Markers s r) Held u₀ u' := by
    intro u' hsame
    have hstraight : ∀ y, Straight u y → ¬ x <+: y → Straight u' y := by
      intro y hy hxy q hq hqne
      rw [(hsame q (hy.of_isPrefix hq) fun h => hxy (h.trans hq)).1]
      exact hy q hq hqne
    refine ⟨?_, fun z hz => ?_⟩
    · rintro _ ⟨x', hx', rfl⟩
      obtain rfl := eq_of_plantsLink hlink hx hx'
      exact hstraight _ (hu.free _ (.marker x hx)) hmark
    · obtain ⟨hz₀, hkind, hcontent⟩ := hu.held z hz
      obtain ⟨hkind', hcontent'⟩ := hsame z hz₀ (hheld' z hz)
      exact ⟨hstraight z hz₀ (hheld' z hz), hkind'.trans hkind, hcontent'.trans hcontent⟩
  have habove' : Straight u x.dropLast := hu.free _ (.above x _ hx (List.prefix_refl _))
  exact (LocalPhysicalFS.symlink u t x habove').weaken (fun _ h => h) (fun _ => hafter) hafter

theorem survives_of_spares (hp : PlainPath p) (hr : Spares p s r)
    (hheld : ∀ z, Held z → z = p ∨ z = whiteoutPath p) :
    Survives (Kept (Near s r) Held u₀) (Kept (Markers s r) Held u₀) s r where
  weaker u hu := by
    refine ⟨?_, hu.held⟩
    rintro _ ⟨x, hx, rfl⟩
    exact hu.free _ (.marker x hx)
  near x hx := keptNear_near hp hr hheld hx
  file x hx := keptAt_kept (.file x hx) fun z hz =>
    hr.ne_upTo (mem_writes_of_mem_creates hx) (List.prefix_refl x) (hheld z hz)
  marker x hx := (keptAt_kept ⟨x, hx, rfl⟩ fun z hz =>
    hr.ne_marker hp hx (hheld z hz)).toKeptName
  below hdir x hx := by
    refine ⟨keptBelow_near hp hr hheld hx hdir, fun y m _ _ => ?_⟩
    rw [List.append_assoc]
    exact (keptAt_kept (.below x _ hx hdir) fun z hz =>
      hr.ne_below hx hdir (hheld z hz)).toKeptName
  link hlink x hx t := symlink_kept hp hr hheld hlink hx t

/-- What stands at a spared path, and at its marker, stays through the request. -/
theorem step_held (hp : PlainPath p) (hr : Spares p s r) (hz : z = p ∨ z = whiteoutPath p)
    (hstraight : Straight s.root.upper z) :
    Straight (next s r).root.upper z ∧ SameAt s.root.upper (next s r).root.upper z ∧
      (next s r).root.lower = s.root.lower := by
  have hkept : Kept (Near s r) (· = z) s.root.upper s.root.upper :=
    ⟨fun y hy => hy.straight hr, by rintro _ rfl; exact ⟨hstraight, rfl, rfl⟩⟩
  have hstep := step_stacked (survives_of_spares hp hr (by rintro _ rfl; exact hz)) hkept
  obtain ⟨⟨-, hheld⟩, hlower⟩ := hstep.finalState rfl
  exact ⟨(hheld z rfl).1, (hheld z rfl).2, hlower⟩

theorem gone_step (hp : PlainPath p) (h : Gone p s.root) (hr : Spares p s r) :
    Gone p (next s r).root := by
  rcases h with ⟨hmark, hsome⟩ | ⟨hstraight, hnone, hlower⟩
  · obtain ⟨hmark', ⟨hkind, -⟩, -⟩ := step_held hp hr (Or.inr rfl) hmark
    exact Or.inl ⟨hmark', by rwa [hkind]⟩
  · obtain ⟨hstraight', ⟨hkind, -⟩, hsame⟩ := step_held hp hr (Or.inl rfl) hstraight
    exact Or.inr ⟨hstraight', hkind.trans hnone, by rwa [existsInLower, hsame]⟩

theorem present_step (hq : PlainPath q) (h : Present q d s.root.upper)
    (hr : Spares q s r) : Present q d (next s r).root.upper := by
  refine h.same fun z hz => ?_
  have hstraight : Straight s.root.upper z := by
    rcases hz with rfl | rfl
    · exact h.straight
    · exact h.straightMarker
  obtain ⟨hstraight', hsame, -⟩ := step_held hq hr hz hstraight
  exact ⟨hstraight', hsame⟩

theorem gone_run (hp : PlainPath p) (h : Gone p s.root) (hrun : EachStep next (Spares p) s rs) :
    Gone p (run s rs).root :=
  EachStep.invariant (I := fun s => Gone p s.root) hrun (fun _ _ h hr => gone_step hp h hr) h

theorem present_run (hq : PlainPath q) (h : Present q d s.root.upper)
    (hrun : EachStep next (Spares q) s rs) : Present q d (run s rs).root.upper :=
  EachStep.invariant (I := fun s => Present q d s.root.upper) hrun
    (fun _ _ h hr => present_step hq h hr) h

/-! ### The requests that remove and move a file -/

variable [LawfulPhysicalFS ℓ] {parent newparent : Ino} {name newname : Name}

theorem existsInRoot_iff_shows (hp : PlainPath p) : existsInRoot p s = true ↔ Shows p s.root := by
  obtain ⟨found, hresolve, hiff⟩ := resolve_isSome_iff hp.noMarker s.root
  have hexists : existsAt s.root p = .ok found.isSome := by
    change LayerFS.existsAt p s.root = _
    rw [LayerFS.existsAt, hresolve]
    rfl
  rw [existsInRoot, hexists, unwrapOr_ok, hiff]

/-- After `unlink` the path is gone. -/
theorem unlink_gone (hpath : childPath s parent name = some p) (hp : PlainPath p)
    (hmark : Straight s.root.upper (whiteoutPath p))
    (hok : respond s (.unlink parent name) = .ok reply) :
    Gone p (next s (.unlink parent name)).root := by
  have hunlink : Triple (· = s) (unlink parent name) (fun _ s' => Gone p s'.root)
      (fun _ => True) := by
    refine childPath_from trivial fun path hpath' => failIf_from trivial fun hthere => ?_
    obtain rfl : path = p := Option.some.inj (hpath'.symm.trans hpath)
    rw [Bool.not_eq_false', existsInRoot_iff_shows hp] at hthere
    refine Triple.bind (R := fun _ s' => Gone path s'.root) ?_ fun _ =>
      (Keeps.bind unbind_keeps fun _ => Keeps.pure _).triple.weaken (fun _ h => h)
        (fun _ _ h => h) fun _ _ => trivial
    refine (onRoot_rooted (removeFile_gone hmark fun hlower => ?_)).weaken
      (by rintro _ rfl; rfl) (fun _ _ h => h) fun _ _ => trivial
    rw [existsAt_found, hthere.found_of_not_lower hlower]
  exact next_of_ok hunlink hok

/-- What is asked of a rename of the file `p` to `q`. -/
structure Renames (s : Fuse υ ℓ) (parent : Ino) (name : Name) (newparent : Ino) (newname : Name)
    (p q : Path) : Prop where
  src : childPath s parent name = some p
  dst : childPath s newparent newname = some q
  plainSrc : PlainPath p
  plainDst : PlainPath q
  apart : ¬ p <+: q ∧ ¬ q <+: p
  notDir : isDirInRoot p s = false
  straight : ∀ x, x = p ∨ x = q →
    Straight s.root.upper x ∧ Straight s.root.upper (whiteoutPath x)

/-- After the rename of a file the new path has its content and the old one is gone. -/
theorem rename_moves (h : Renames s parent name newparent newname p q)
    (hcontent : contentAt s.root p = .ok d)
    (hok : respond s (.rename parent name newparent newname) = .ok reply) :
    Gone p (next s (.rename parent name newparent newname)).root ∧
      Present q d (next s (.rename parent name newparent newname)).root.upper := by
  have hrename : Triple (· = s) (rename parent name newparent newname)
      (fun _ s' => Gone p s'.root ∧ Present q d s'.root.upper) (fun _ => True) := by
    refine rename_from trivial fun src dst hsrc hdst => ?_
    obtain rfl : src = p := Option.some.inj (hsrc.symm.trans h.src)
    obtain rfl : dst = q := Option.some.inj (hdst.symm.trans h.dst)
    have htables : Triple
        (fun s' : Fuse υ ℓ => Gone src s'.root ∧ Present dst d s'.root.upper)
        (do rebind src dst; return Reply.ok)
        (fun _ s' => Gone src s'.root ∧ Present dst d s'.root.upper) (fun _ => True) :=
      ((Keeps.bind (rebind_keeps _ _) fun _ => Keeps.pure _).triple
        (I := fun fs => Gone src fs ∧ Present dst d fs.upper)).weaken
        (fun _ h => h) (fun _ _ h => h) fun _ _ => trivial
    refine Triple.bind ?_ fun _ => htables
    refine Triple.weaken (onRoot_rooted (I := (· = s.root)) (E := fun _ => True)
      (Q := fun _ fs => Gone src fs ∧ Present dst d fs.upper) (move_from trivial ?_ ?_))
      (by rintro _ rfl; rfl) (fun _ _ h => h) fun _ h => h
    · intro hisDir
      rw [h.notDir] at hisDir
      cases hisDir
    · intro _ _ _
      obtain ⟨hlinkp, hmarkp⟩ := h.straight _ (Or.inl rfl)
      obtain ⟨hlinkq, hmarkq⟩ := h.straight _ (Or.inr rfl)
      exact moveFile_moves h.plainSrc h.plainDst h.apart.1 h.apart.2 hlinkp hmarkp hlinkq hmarkq
        hcontent
  exact next_of_ok hrename hok

/-! ### Runs -/

omit [LocalPhysicalFS υ] [LawfulPhysicalFS ℓ] in
theorem Tracks.run (h : Tracks fh p d (files s)) (hrun : EachStep next (Spares p) s rs) :
    Tracks fh p d (files (run s rs)) :=
  EachStep.invariant (I := fun s => Tracks fh p d (files s)) hrun (fun _ _ h hr => h.step hr) h

/-- The state is reached by some daemon in some run. -/
def Reachable (s : Fuse υ ℓ) : Prop :=
  ∃ root verifiedLayers frames rs, s = run (new root verifiedLayers frames) rs

omit [LocalPhysicalFS υ] [LawfulPhysicalFS ℓ] in
theorem Reachable.issued (h : Reachable s) : Issued s := by
  obtain ⟨root, verifiedLayers, frames, rs, rfl⟩ := h
  exact issued_run root verifiedLayers frames rs

/-- A path that was unlinked stays absent, and a renamed file has the bytes of a clean
handle opened at its old path, which stays absent: as long as the requests that follow,
the release of the handle included, spare these paths. -/
theorem names_stay (s : Fuse υ ℓ) (hs : Reachable s) :
    (∀ parent name p reply rs, childPath s parent name = some p → PlainPath p →
      Straight s.root.upper (whiteoutPath p) → respond s (.unlink parent name) = .ok reply →
      EachStep next (Spares p) (next s (.unlink parent name)) rs →
      existsAt (run s (.unlink parent name :: rs)).root p = .ok false) ∧
    ∀ parent name newparent newname p q d fh w reply released rs,
      Renames s parent name newparent newname p q → contentAt s.root p = .ok d →
      s.openFiles fh = some (.buffered p d false w) →
      respond s (.rename parent name newparent newname) = .ok reply →
      EachStep next (fun s r => Spares p s r ∧ Spares q s r)
        (next s (.rename parent name newparent newname)) (rs ++ [.release fh]) →
      respond (run s (.rename parent name newparent newname :: rs)) (.release fh) = .ok released →
      (∃ w, (run s (.rename parent name newparent newname :: rs)).openFiles fh =
        some (.buffered p d false w)) ∧
      contentAt (run s (.rename parent name newparent newname :: (rs ++ [.release fh]))).root q =
        .ok d ∧
      existsAt (run s (.rename parent name newparent newname :: (rs ++ [.release fh]))).root p =
        .ok false := by
  refine ⟨fun parent name p reply rs hpath hp hmark hok hrun => ?_, ?_⟩
  · exact (gone_run hp (unlink_gone hpath hp hmark hok) hrun).existsAt hp
  intro parent name newparent newname p q d fh w reply released rs hrename hcontent hfile hok hrun
    hreleased
  obtain ⟨hgone, hpresent⟩ := rename_moves hrename hcontent hok
  have hp := hrun.mono fun _ _ h => h.1
  have hq := hrun.mono fun _ _ h => h.2
  -- the rename itself leaves the handle alone
  have hfh : fh < s.nextFh := hs.issued fh (by rw [hfile]; rfl)
  have hsame : Has fh (some (.buffered p d false w))
      (next s (.rename parent name newparent newname)) := openFiles_frame ⟨hfile, hfh⟩ id
  have htracks : Tracks fh p d (files (next s (.rename parent name newparent newname))) :=
    ⟨hsame.2, fun file h => Or.inl ⟨w, Option.some.inj (h.symm.trans hsame.1)⟩⟩
  obtain ⟨hbefore, hlast, -⟩ := eachStep_append.mp hp
  exact ⟨(htracks.run hbefore).release hlast hreleased,
    (present_run hrename.plainDst hpresent hq).contentAt,
    (gone_run hrename.plainSrc hgone hp).existsAt hrename.plainSrc⟩

/-- The file is looked up and opened for writing. -/
def openForWriting : List Request :=
  [.lookup rootIno "f".toList, .openInode 2 ⟨.readWrite, false, false⟩ false]

theorem names_stay_oneFile :
    existsAt (run oneFile (openForWriting ++
      [.unlink rootIno "f".toList, .write 1 0 [7], .read 1 0 8])).root ["f".toList] = .ok false ∧
    contentAt (run oneFile (openForWriting ++
      [.rename rootIno "f".toList rootIno "g".toList, .read 1 0 8, .release 1])).root
        ["g".toList] = .ok [1] := by
  have hnone : ∀ (p : Path) (s : Fuse Tree Tree) r, writes s r = [] → ¬ RenamesDir s r →
      Spares p s r := by
    intro p s r hwrites hdir
    have hcreates : ∀ x, x ∉ creates s r := fun x hx => by
      simpa [hwrites] using mem_writes_of_mem_creates hx
    constructor <;> simp [hwrites, hcreates]
  have h := names_stay (run oneFile openForWriting) ⟨_, _, _, _, rfl⟩
  refine ⟨h.1 rootIno "f".toList ["f".toList] .ok [.write 1 0 [7], .read 1 0 8] rfl (by decide)
    (Tree.straight _ _) rfl ⟨hnone _ _ _ rfl id, hnone _ _ _ rfl id, trivial⟩, ?_⟩
  have hboth : ∀ (s : Fuse Tree Tree) r, writes s r = [] → ¬ RenamesDir s r →
      Spares ["f".toList] s r ∧ Spares ["g".toList] s r :=
    fun s r hwrites hdir => ⟨hnone _ s r hwrites hdir, hnone _ s r hwrites hdir⟩
  refine (h.2 rootIno "f".toList rootIno "g".toList ["f".toList] ["g".toList] [1] 1 true .ok .ok
    [.read 1 0 8] ?_ rfl rfl rfl ⟨hboth _ _ rfl id, hboth _ _ rfl id, trivial⟩ rfl).2.1
  exact ⟨rfl, rfl, by decide, by decide, by decide, rfl,
    fun x _ => ⟨Tree.straight _ _, Tree.straight _ _⟩⟩

/-- A write before the `unlink`, or before the `rename`, brings the old path back when
the handle is released, and the renamed file does not get it. -/
theorem not_names_stay_oneFile :
    respond (run oneFile (openForWriting ++ [.write 1 0 [7]])) (.unlink rootIno "f".toList) =
      .ok .ok ∧
    existsAt (run oneFile (openForWriting ++
      [.write 1 0 [7], .unlink rootIno "f".toList, .release 1])).root ["f".toList] = .ok true ∧
    respond (run oneFile (openForWriting ++ [.write 1 0 [7]]))
      (.rename rootIno "f".toList rootIno "g".toList) = .ok .ok ∧
    respond (run oneFile (openForWriting ++
      [.write 1 0 [7], .rename rootIno "f".toList rootIno "g".toList])) (.release 1) = .ok .ok ∧
    contentAt (run oneFile (openForWriting ++
      [.write 1 0 [7], .rename rootIno "f".toList rootIno "g".toList, .release 1])).root
        ["g".toList] = .ok [1] ∧
    existsAt (run oneFile (openForWriting ++
      [.write 1 0 [7], .rename rootIno "f".toList rootIno "g".toList, .release 1])).root
        ["f".toList] = .ok true := by
  refine ⟨rfl, rfl, rfl, rfl, rfl, rfl⟩

end Fuse

end Rspacefs
