import Rspacefs.Core.Frame
import Rspacefs.Fuse.SideChannel

/-!
# Absent paths and plain files

Two ways a path can stand in a stack of directories on disk. `Gone p` says how `p` is
absent after a removal: the upper layer has a whiteout of it, or no layer has it.
`Present q d` says how a file stands in the upper layer after it was written: with the
content `d`, and with no whiteout. Both are stated on the directories, so that they can be
carried through calls which do not name the path.

## Main definitions

* `Gone`, `Present`

## Main results

* `removeFile_gone` — what `remove_file` leaves
* `copyFile_present` — what `copy_file` leaves
* `moveFile_moves` — what `move_file` leaves at both ends
-/

namespace Rspacefs

open Lib LayerFS

variable {υ ℓ : Type} {p q x : Path} {fs : LayerFS υ ℓ} {lower : List ℓ} {d : Bytes}

/-! ### Calls at a straight path -/

section Upper

variable [PhysicalFS υ] {u : υ}

/-- The upper layer has a file with content `d` at `q`, and no whiteout of it. -/
structure Present (q : Path) (d : Bytes) (u : υ) : Prop where
  straight : Straight u q
  entry : (kindAt u q).isSome
  content : contentAt u q = .ok d
  straightMarker : Straight u (whiteoutPath q)
  noMarker : kindAt u (whiteoutPath q) = none

theorem straight_of_dropLast (h : Straight u p.dropLast) (hnone : kindAt u p = none) :
    Straight u p := by
  intro q hq hne
  by_cases hqp : q = p
  · rw [hqp, hnone]
    simp
  · exact h q (prefix_dropLast_of_ne hq hqp) hne

theorem Straight.marker (h : Straight u (whiteoutPath p)) : Straight u p.dropLast :=
  h.of_isPrefix (List.prefix_append _ _)

/-- A file stays where nothing changed at its path and its marker. -/
theorem Present.same {u' : υ} (h : Present q d u)
    (hsame : ∀ z, z = q ∨ z = whiteoutPath q → Straight u' z ∧ SameAt u u' z) : Present q d u' := by
  obtain ⟨hq, hkind, hcontent⟩ := hsame q (Or.inl rfl)
  obtain ⟨hmark, hkindMark, -⟩ := hsame _ (Or.inr rfl)
  exact ⟨hq, by rw [hkind]; exact h.entry, hcontent.trans h.content, hmark,
    hkindMark.trans h.noMarker⟩

/-- Calls near `x` are straight, and `p` and its marker are as in `u₀`. -/
def Beside (x p : Path) (u₀ u : υ) : Prop :=
  Kept (fun y => y <+: x ∨ y = whiteoutPath x) (fun z => z = p ∨ z = whiteoutPath p) u₀ u

theorem beside_start {u : υ} (hx : Straight u x) (hmarkx : Straight u (whiteoutPath x))
    (hp : Straight u p) (hmarkp : Straight u (whiteoutPath p)) :
    Beside x p u u := by
  refine ⟨?_, ?_⟩
  · rintro y (hy | rfl)
    · exact hx.of_isPrefix hy
    · exact hmarkx
  · rintro z (rfl | rfl)
    · exact ⟨hp, rfl, rfl⟩
    · exact ⟨hmarkp, rfl, rfl⟩

variable [LocalPhysicalFS υ]

theorem vfsCreateFile_at (hx : Straight u x) :
    Triple (· = u) (VfsPath.createFile x)
      (fun w u' => Steady x u u' ∧ w = ⟨x, 0⟩ ∧ kindAt u' x = some .regularFile ∧
        contentAt u' x = .ok []) (fun _ => True) :=
  Triple.ask_from trivial fun _ _ =>
    (LocalPhysicalFS.createFile u x hx).weaken (fun _ h => h) (fun _ _ h => h) fun _ _ => trivial

/-- Making sure that a straight path exists. -/
theorem unlessExists_creates :
    Triple (fun u : υ => Straight u x) (unlessExists x do let _ ← VfsPath.createFile x)
      (fun _ u => Straight u x ∧ (kindAt u x).isSome) (fun _ => True) := by
  refine Triple.of_forall fun u hu => Triple.ask_from trivial fun there hthere => ?_
  rw [LocalPhysicalFS.existsAt_of_straight u x hu, Except.ok.injEq] at hthere
  refine Triple.ite (fun h => Triple.pure () ?_) fun _ => ?_
  · rintro _ rfl
    exact ⟨hu, hthere.trans h⟩
  · exact Triple.bind (vfsCreateFile_at hu) fun w => Triple.pure () fun u' h =>
      ⟨h.1.straight hu, by rw [h.2.2.1]; rfl⟩

/-- Making sure that a straight path does not exist. -/
theorem whenExists_removes {y : Path} :
    Triple (fun u : υ => Straight u y ∧ Straight u x) (whenExists x (FileSystem.removeFile x))
      (fun _ u => Straight u y ∧ Straight u x ∧ kindAt u x = none) (fun _ => True) := by
  refine Triple.of_forall fun u ⟨hy, hu⟩ => Triple.ask_from trivial fun there hthere => ?_
  rw [LocalPhysicalFS.existsAt_of_straight u x hu, Except.ok.injEq] at hthere
  refine Triple.ite (fun _ => ?_) fun h => Triple.pure () ?_
  · exact (LocalPhysicalFS.removeFile u x (hu.of_isPrefix (List.dropLast_prefix x))).weaken
      (fun _ h => h) (fun _ _ h => ⟨h.1.straight hy, h.1.straight hu, h.2⟩) fun _ _ => trivial
  · rintro _ rfl
    refine ⟨hy, hu, ?_⟩
    rw [← Option.not_isSome_iff_eq_none, hthere]
    exact h

/-- Making the parents of a straight path keeps straight paths straight. -/
theorem parents_straight (x y : Path) :
    Triple (Stacked (fun u : υ => Straight u x ∧ Straight u y) lower) (ensureUpperParents x)
      (fun _ => Stacked (fun u => Straight u x ∧ Straight u y) lower) (fun _ => True) := by
  refine Triple.of_forall fun fs ⟨⟨hx, hy⟩, hlower⟩ => ?_
  have hparents : Triple
      (Stacked (Kept (fun z => z <+: x ∨ z = y) (fun _ => False) fs.upper) lower)
      (ensureUpperParents x)
      (fun _ => Stacked (Kept (fun z => z <+: x ∨ z = y) (fun _ => False) fs.upper) lower)
      (Stacked (Kept (fun z => z <+: x ∨ z = y) (fun _ => False) fs.upper) lower) :=
    ensureUpperParents_stacked fun q hq => keptName_kept (fun _ hu => hu.free _ (Or.inl
      ((List.dropLast_prefix q).trans (hq.trans (List.dropLast_prefix x))))) fun _ h => h.elim
  refine hparents.weaken ?_ (fun _ _ h => ⟨⟨h.1.free x (Or.inl (List.prefix_refl x)),
    h.1.free y (Or.inr rfl)⟩, h.2⟩) fun _ _ => trivial
  rintro _ rfl
  refine ⟨⟨?_, fun _ h => h.elim⟩, hlower⟩
  rintro z (hz | rfl)
  · exact hx.of_isPrefix hz
  · exact hy

theorem createWhiteout_marks :
    Triple (Stacked (fun u : υ => Straight u (whiteoutPath p)) lower) (createWhiteout p)
      (fun _ => Stacked
        (fun u => Straight u (whiteoutPath p) ∧ (kindAt u (whiteoutPath p)).isSome) lower)
      (fun _ => True) :=
  Triple.bind ((parents_straight (whiteoutPath p) (whiteoutPath p)).weaken
    (fun _ h => ⟨⟨h.1, h.1⟩, h.2⟩) (fun _ _ h => ⟨h.1.1, h.2⟩) fun _ h => h) fun _ =>
      (onUpper_stacked unlessExists_creates).weaken (fun _ h => h) (fun _ _ h => h)
        fun _ _ => trivial

/-- `File::create` and `write_all` at a path without a whiteout. -/
theorem createFile_present {u : υ} (hq : Straight u q) (hmark : Straight u (whiteoutPath q))
    (hnone : kindAt u (whiteoutPath q) = none) (hne : q ≠ []) :
    Triple (· = u) (VfsPath.createFile q >>= fun w => FileSystem.writeAll w d)
      (fun _ => Present q d) (fun _ => True) := by
  have hmarkne : whiteoutPath q ≠ q := whiteoutPath_ne hne
  refine Triple.bind_from (vfsCreateFile_at hq) ?_
  rintro w u₁ ⟨hsteady, rfl, hkind, hcontent⟩
  have hq₁ := hsteady.straight hq
  have hmark₁ := hsteady.straight hmark
  refine (LocalPhysicalFS.writeAll u₁ q 0 d hq₁).weaken (fun _ h => h) ?_ fun _ _ => trivial
  rintro _ u₂ ⟨hsteady', hkind', hcontent'⟩
  refine ⟨hsteady'.straight hq₁, ?_, ?_, hsteady'.straight hmark₁, ?_⟩
  · rw [hkind', hkind]
    rfl
  · rw [hcontent' [] hcontent, splice_nil]
  · rw [(hsteady'.others _ hmark₁ hmarkne).1, (hsteady.others _ hmark hmarkne).1, hnone]

/-- `create_file` and `write_all` of the overlay. -/
theorem writeNew_present (hne : q ≠ []) :
    Triple (Stacked (fun u : υ => Straight u q ∧ Straight u (whiteoutPath q)) lower)
      (do
        ensureUpperParents q
        removeWhiteout q
        let w ← onUpper (VfsPath.createFile q)
        onUpper (FileSystem.writeAll w d))
      (fun _ => Stacked (Present q d) lower) (fun _ => True) := by
  refine Triple.bind (parents_straight q (whiteoutPath q)) fun _ => ?_
  refine Triple.bind ((onUpper_stacked whenExists_removes).weaken (fun _ h => h) (fun _ _ h => h)
    fun _ _ => trivial) fun _ => ?_
  have hnew : Triple (fun u : υ => Straight u q ∧ Straight u (whiteoutPath q) ∧
      kindAt u (whiteoutPath q) = none) (VfsPath.createFile q >>= fun w => FileSystem.writeAll w d)
      (fun _ => Present q d) (fun _ => True) :=
    Triple.of_forall fun u hu => createFile_present hu.1 hu.2.1 hu.2.2 hne
  rw [← onUpper_bind]
  exact (onUpper_stacked hnew).weaken (fun _ h => h) (fun _ _ h => h) fun _ _ => trivial

end Upper

/-! ### How a path stands -/

variable [PhysicalFS ℓ]

theorem not_lowerShows (h : existsInLower p fs = false) : ¬ LowerShows p fs.lower := by
  rintro ⟨above, l, below, hlower, hfound, -⟩
  have hexists : existsInLower p fs = true :=
    List.any_eq_true.mpr ⟨l, by rw [hlower]; simp, hfound⟩
  rw [h] at hexists
  cases hexists

variable [PhysicalFS υ]

theorem Shows.found_of_not_lower (h : Shows p fs) (hlower : existsInLower p fs = false) :
    found fs.upper p = true :=
  h.2.resolve_right fun h => not_lowerShows hlower h.2

/-- The path is whited out in the upper layer, or no layer has it. -/
def Gone (p : Path) (fs : LayerFS υ ℓ) : Prop :=
  Straight fs.upper (whiteoutPath p) ∧ (kindAt fs.upper (whiteoutPath p)).isSome ∨
    Straight fs.upper p ∧ kindAt fs.upper p = none ∧ existsInLower p fs = false

variable [LocalPhysicalFS υ]

theorem found_of_straight {u : υ} (h : Straight u p) : found u p = (kindAt u p).isSome := by
  rw [found, LocalPhysicalFS.existsAt_of_straight u p h, unwrapOr_ok]

theorem Gone.not_shows (h : Gone p fs) : ¬ Shows p fs := by
  rintro ⟨hmark, hshows⟩
  rcases h with ⟨hstraight, hsome⟩ | ⟨hstraight, hnone, hlower⟩
  · rw [found_of_straight hstraight, hsome] at hmark
    cases hmark
  · rcases hshows with hfound | ⟨-, hshows⟩
    · rw [found_of_straight hstraight, hnone] at hfound
      cases hfound
    · exact not_lowerShows hlower hshows

theorem Gone.resolve [LawfulPhysicalFS ℓ] (hp : PlainPath p) (h : Gone p fs) :
    LayerFS.resolve p fs = .ok none := by
  obtain ⟨r, hresolve, hiff⟩ := resolve_isSome_iff hp.noMarker fs
  rw [hresolve, Except.ok.injEq, ← Option.not_isSome_iff_eq_none, hiff]
  exact h.not_shows

theorem Gone.existsAt [LawfulPhysicalFS ℓ] (hp : PlainPath p) (h : Gone p fs) :
    Rspacefs.existsAt fs p = .ok false := by
  change LayerFS.existsAt p fs = _
  rw [LayerFS.existsAt, h.resolve hp]
  rfl

/-- The overlay shows the file. -/
theorem Present.contentAt (h : Present q d fs.upper) : Rspacefs.contentAt fs q = .ok d := by
  have hmark : isWhiteout q fs.upper = .ok false := by
    rw [isWhiteout, LocalPhysicalFS.existsAt_of_straight _ _ h.straightMarker, h.noMarker]
    rfl
  have hentry : FileSystem.existsAt fs.upper q = .ok true := by
    rw [LocalPhysicalFS.existsAt_of_straight _ _ h.straight, h.entry]
  have hresolve : LayerFS.resolve q fs = .ok (some .upper) := by
    rw [LayerFS.resolve, hmark, hentry]
    rfl
  have hopen : Rspacefs.openFile fs q = Rspacefs.openFile fs.upper q := by
    change LayerFS.openFile q fs = _
    rw [LayerFS.openFile, hresolve]
    rfl
  rw [Rspacefs.contentAt, hopen]
  exact h.content

/-! ### Removing a file -/

theorem removeFile_gone (hmark : Straight fs.upper (whiteoutPath p))
    (hthere : existsInLower p fs = false → FileSystem.existsAt fs.upper p = .ok true) :
    Triple (· = fs) (LayerFS.removeFile p) (fun _ => Gone p) (fun _ => True) := by
  have hdrop : Triple (· = fs.upper) (whenExists p (FileSystem.removeFile p))
      (fun _ u => Straight u (whiteoutPath p) ∧
        (existsInLower p fs = false → Straight u p ∧ kindAt u p = none)) (fun _ => True) := by
    refine Triple.ask_from trivial fun there hask => Triple.ite (fun _ => ?_) fun h => ?_
    · refine (LocalPhysicalFS.removeFile fs.upper p hmark.marker).weaken (fun _ h => h) ?_
        fun _ _ => trivial
      rintro _ u ⟨hsteady, hnone⟩
      exact ⟨hsteady.straight hmark, fun _ =>
        ⟨straight_of_dropLast (hsteady.straight hmark.marker) hnone, hnone⟩⟩
    · refine Triple.pure () ?_
      rintro _ rfl
      refine ⟨hmark, fun hlower => absurd ?_ h⟩
      rw [hthere hlower, Except.ok.injEq] at hask
      exact hask.symm
  refine Triple.bind (R := fun _ fs' => Stacked (fun u => Straight u (whiteoutPath p) ∧
    (existsInLower p fs = false → Straight u p ∧ kindAt u p = none)) fs.lower fs') ?_ fun _ => ?_
  · exact Triple.weaken (P := Stacked (· = fs.upper) fs.lower) (onUpper_stacked hdrop)
      (by rintro _ rfl; exact ⟨rfl, rfl⟩) (fun _ _ h => h) fun _ _ => trivial
  refine Triple.of_forall fun fs' ⟨⟨hmark', hnone⟩, hlower⟩ =>
    Triple.ask_from trivial fun inLower hask => ?_
  -- dropping the upper entry leaves the lower layers
  have hsame : existsInLower p fs' = existsInLower p fs := by
    rw [existsInLower, hlower]
    rfl
  rw [Except.ok.injEq, hsame] at hask
  refine Triple.ite (fun _ => ?_) fun h => Triple.pure () ?_
  · have hstart : Stacked (fun u => Straight u (whiteoutPath p)) fs.lower fs' := ⟨hmark', hlower⟩
    exact createWhiteout_marks.weaken (by rintro _ rfl; exact hstart)
      (fun _ _ h => Or.inl h.1) fun _ _ => trivial
  · rintro _ rfl
    rw [Bool.not_eq_true, ← hask] at h
    exact Or.inr ⟨(hnone h).1, (hnone h).2, hsame.trans h⟩

/-! ### Copying and moving a file -/

/-- Only the content of the source gets into a copy. -/
theorem copyFile_present (hq : Straight fs.upper q) (hmark : Straight fs.upper (whiteoutPath q))
    (hne : q ≠ []) (hcontent : contentAt fs p = .ok d) :
    Triple (· = fs) (LayerFS.copyFile p q) (fun _ fs' => Present q d fs'.upper) (fun _ => True) := by
  refine Triple.ask_from trivial fun source hsource => ?_
  refine Triple.ask_from trivial fun reader hreader => ?_
  refine Triple.ask_from trivial fun data hdata => ?_
  have hopen : Rspacefs.openFile fs p = .ok reader := by
    change LayerFS.openFile p fs = _
    obtain ⟨r, hresolve, hr⟩ := except_bind_eq_ok.mp hsource
    exact except_bind_eq_ok.mpr ⟨r, hresolve, except_bind_eq_ok.mpr ⟨source, hr, hreader⟩⟩
  have hd : data = d := by
    rw [contentAt, hopen] at hcontent
    exact Except.ok.inj (hdata.symm.trans hcontent)
  rw [hd]
  exact Triple.weaken (P := Stacked (fun u => Straight u q ∧ Straight u (whiteoutPath q)) fs.lower)
    (writeNew_present hne) (by rintro _ rfl; exact ⟨⟨hq, hmark⟩, rfl⟩) (fun _ _ h => h.1) fun _ h => h

/-- The calls near one client's path keep what stands at another and at its marker. -/
theorem keptFile_other {u₀ : υ} (hp : PlainPath p) (hx : PlainPath x) (hpx : ¬ p <+: x) :
    KeptFile (Beside x p u₀) x := by
  have hne : p ≠ x := by
    rintro rfl
    exact hpx (List.prefix_refl p)
  have hupTo : ∀ y, y <+: x → KeptAt (Beside x p u₀) y := by
    refine fun y hy => keptAt_kept (Or.inl hy) ?_
    rintro z (rfl | rfl)
    · rintro rfl
      exact hpx hy
    · exact ((hx.of_isPrefix hy).unmarked.ne_whiteoutPath).symm
  refine ⟨⟨keptAt_kept (Or.inr rfl) ?_, fun y hy => (hupTo y hy).toKeptName⟩,
    hupTo x (List.prefix_refl x)⟩
  rintro z (rfl | rfl)
  · exact hp.unmarked.ne_whiteoutPath
  · exact fun h => hne (hp.unmarked.whiteoutPath_inj hx.unmarked h)

/-- A file that is read is shown by some layer. -/
theorem shows_of_content [LawfulPhysicalFS ℓ] (hp : PlainPath p) (hcontent : contentAt fs p = .ok d) :
    Shows p fs := by
  obtain ⟨reader, hopen, -⟩ := except_bind_eq_ok.mp hcontent
  obtain ⟨r, hresolve, hr⟩ := except_bind_eq_ok.mp hopen
  obtain ⟨source, hsource, -⟩ := except_bind_eq_ok.mp hr
  obtain ⟨r', hresolve', hiff⟩ := resolve_isSome_iff hp.noMarker fs
  obtain rfl : r = r' := Except.ok.inj (hresolve.symm.trans hresolve')
  refine hiff.mp ?_
  cases r with
  | none => cases hsource
  | some _ => rfl

/-- Moving a file that a client sees: the new path has its content, the old one is gone. -/
theorem moveFile_moves [LawfulPhysicalFS ℓ] (hp : PlainPath p) (hq : PlainPath q) (hpq : ¬ p <+: q)
    (hqp : ¬ q <+: p) (hlinkp : Straight fs.upper p) (hmarkp : Straight fs.upper (whiteoutPath p))
    (hlinkq : Straight fs.upper q) (hmarkq : Straight fs.upper (whiteoutPath q))
    (hcontent : contentAt fs p = .ok d) :
    Triple (· = fs) (LayerFS.moveFile p q) (fun _ fs' => Gone p fs' ∧ Present q d fs'.upper)
      (fun _ => True) := by
  have hne : q ≠ [] := by
    rintro rfl
    exact hqp List.nil_prefix
  have hbeside : Triple (Stacked (Beside q p fs.upper) fs.lower) (LayerFS.copyFile p q)
      (fun _ => Stacked (Beside q p fs.upper) fs.lower)
      (Stacked (Beside q p fs.upper) fs.lower) := copyFile_stacked p (keptFile_other hp hq hpq)
  -- the copy leaves the source as it is, and the removal the destination
  refine Triple.bind_from (((copyFile_present hlinkq hmarkq hne hcontent).and hbeside).weaken ?_
    (fun _ _ h => h) fun _ _ => trivial) ?_
  · rintro _ rfl
    exact ⟨rfl, beside_start hlinkq hmarkq hlinkp hmarkp, rfl⟩
  rintro _ fs₁ ⟨hpresent, hkept, hlower⟩
  obtain ⟨hp₁, hkind, -⟩ := hkept.held p (Or.inl rfl)
  have hmark₁ := (hkept.held _ (Or.inr rfl)).1
  have hthere : existsInLower p fs₁ = false → FileSystem.existsAt fs₁.upper p = .ok true := by
    intro hnot
    rw [existsInLower, hlower] at hnot
    have hfound := (shows_of_content hp hcontent).found_of_not_lower hnot
    rw [LocalPhysicalFS.existsAt_of_straight _ _ hp₁, hkind, ← found_of_straight hlinkp, hfound]
  have hbeside₁ : Triple (Stacked (Beside p q fs₁.upper) fs₁.lower) (LayerFS.removeFile p)
      (fun _ => Stacked (Beside p q fs₁.upper) fs₁.lower)
      (Stacked (Beside p q fs₁.upper) fs₁.lower) :=
    removeFile_stacked (keptFile_other hq hp hqp).toKeptNear
  refine ((removeFile_gone hmark₁ hthere).and hbeside₁).weaken ?_ ?_ fun _ _ => trivial
  · rintro _ rfl
    exact ⟨rfl, beside_start hp₁ hmark₁ hpresent.straight hpresent.straightMarker, rfl⟩
  · rintro _ fs' ⟨hgone, hkept', -⟩
    exact ⟨hgone, hpresent.same hkept'.held⟩

end Rspacefs
