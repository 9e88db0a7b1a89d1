import Rspacefs.Core.CopyTree
import Rspacefs.Core.TreeRun

/-!
# What `remove_dir_recursive` leaves

The second half of `move_dir`, where only the upper layer shows something below the directory that
is removed. Each entry that goes leaves a whiteout beside it if a lower layer holds its path, and
the directory takes these along when it goes itself: they are swept out of it first.

## Main definitions

* `Removable` — nothing in the upper layer keeps the directory from being removed
* `Emptied` — a path and everything below it is gone from the upper layer
* `Cleared` — what the upper layer holds when some of the paths are removed, and others are not

## Main results

* `exists_run_sweep` — markers are swept out of a directory, and it is removed
* `exists_run_removeDirRecursive` — a removal of the whole directory returns, and removes what
  the upper layer has
-/

namespace Rspacefs

open Lib LayerFS

variable {fs fs' fs₀ fs₁ : Stack} {t t' : Tree} {p q r s src : Path} {n m : Name} {S : Set Path}

/-! ### Sweeping out markers -/

/-- The markers of the names in `l` are dropped. -/
theorem exists_run_dropMarkers (l : List Name) (hl : l.Nodup)
    (hfile : ∀ m ∈ l, IsMarker m → ∃ c, t.get? (p ++ [m]) = some (.file c)) :
    ∃ t', (l.forM fun name =>
        if IsMarker name then FileSystem.removeFile (p ++ [name]) else pure () :
          VfsM Tree Unit).run t = .ok () t' ∧
      (∀ m, IsMarker m → m ∈ l ∨ t.get? (p ++ [m]) = none → t'.get? (p ++ [m]) = none) ∧
      ∀ q, (∀ m, IsMarker m → q ≠ p ++ [m]) → t'.get? q = t.get? q := by
  induction l generalizing t with
  | nil => exact ⟨t, rfl, fun m _ h => h.resolve_left (by simp), fun _ _ => rfl⟩
  | cons n l ih =>
    obtain ⟨hn, hl⟩ := List.nodup_cons.mp hl
    by_cases hmarker : IsMarker n
    · -- the marker goes, and is not among the names that are left
      obtain ⟨⟨⟩, t₁, hrun⟩ := Tree.returns_removeFile_iff.mpr (hfile n List.mem_cons_self hmarker)
      obtain ⟨-, hget⟩ := (Tree.removeFile_spec t (p ++ [n])).ok rfl hrun
      obtain ⟨t', hrest, hgone, hsame⟩ := ih (t := t₁) hl fun m hm hmm => by
        rw [hget, Function.update_of_ne]
        · exact hfile m (List.mem_cons_of_mem n hm) hmm
        · rintro he
          obtain rfl : m = n := by simpa using he
          exact hn hm
      refine ⟨t', run_bind_eq_ok.mpr ⟨(), t₁, by beta_reduce; rwa [if_pos hmarker], hrest⟩, ?_, ?_⟩
      · intro m hm hin
        apply hgone m hm
        by_cases hmn : m = n
        · exact Or.inr (by simp [hget, hmn])
        · refine hin.imp (fun h => (List.mem_cons.mp h).resolve_left hmn) fun h => ?_
          rwa [hget, Function.update_of_ne (by simpa using hmn)]
      · intro q hq
        rw [hsame q hq, hget, Function.update_of_ne (hq n hmarker)]
    · obtain ⟨t', hrest, hgone, hsame⟩ := ih hl fun m hm => hfile m (List.mem_cons_of_mem n hm)
      refine ⟨t', run_bind_eq_ok.mpr ⟨(), t, ?_, hrest⟩, ?_, hsame⟩
      · beta_reduce
        rw [if_neg hmarker]
        rfl
      intro m hm hin
      apply hgone m hm
      refine hin.imp_left fun h => (List.mem_cons.mp h).resolve_left ?_
      rintro rfl
      exact hmarker hm

/-- Dropping the markers of a directory in which they are files. -/
theorem exists_run_removeMarkers (hdir : t.get? p = some .dir)
    (hmarkers : ∀ m, IsMarker m → t.get? (p ++ [m]) ≠ some .dir) :
    ∃ t', (removeMarkers p).run t = .ok () t' ∧
      (∀ m, IsMarker m → t'.get? (p ++ [m]) = none) ∧
      ∀ q, (∀ m, IsMarker m → q ≠ p ++ [m]) → t'.get? q = t.get? q := by
  obtain ⟨t', hrun, hgone, hsame⟩ := exists_run_dropMarkers (t.children p)
    (PathMap.nodup_children t p) fun m hm hmarker => by
      obtain ⟨node, hnode⟩ := Option.isSome_iff_exists.mp (PathMap.mem_children.mp hm)
      cases node with
      | dir => exact absurd hnode (hmarkers m hmarker)
      | file c => exact ⟨c, hnode⟩
  refine ⟨t', ?_, fun m hm => hgone m hm ?_, hsame⟩
  · refine run_bind_eq_ok.mpr ⟨true, t, run_ask_eq_ok.mpr ⟨by simp [hdir], rfl⟩, ?_⟩
    rw [if_pos rfl]
    exact run_bind_eq_ok.mpr ⟨_, t, run_ask_eq_ok.mpr ⟨Tree.readDir_dir hdir, rfl⟩, hrun⟩
  · rw [PathMap.mem_children]
    cases t.get? (p ++ [m]) <;> simp

/-! ### One path -/

/-- The path is gone from the upper layer, with everything below it; a whiteout may be there for
it, and nothing else changed. -/
structure Emptied (fs fs' : Stack) (p : Path) : Prop where
  lower : fs'.lower = fs.lower
  entry : fs'.upper.get? p = none
  marker : existsInLower p fs = true → fs'.upper.hides p = true
  file : fs'.upper.get? (whiteoutPath p) = some .dir → fs.upper.get? (whiteoutPath p) = some .dir
  rest : ∀ q, ¬ p <+: q → q ≠ whiteoutPath p → fs'.upper.get? q = fs.upper.get? q

namespace Emptied

theorem below (h : Emptied fs fs' p) (hq : p <+: q) : fs'.upper.get? q = none :=
  PathMap.get?_eq_none_of_isPrefix hq h.entry

/-- The removal of an entry that the upper layer has. -/
theorem of_removed (h : Removed fs fs' p) (hentry : (fs.upper.get? p).isSome)
    (hfile : fs'.upper.get? (whiteoutPath p) = some .dir →
      fs.upper.get? (whiteoutPath p) = some .dir) : Emptied fs fs' p where
  lower := h.lower
  entry := h.entry
  marker := h.marker
  file := hfile
  rest := by
    intro q hpq hmarker
    have hqp : q ≠ p := by
      rintro rfl
      exact hpq (List.prefix_refl q)
    rcases h.touched q hqp hmarker with hsame | ⟨hnone, -, -, hpre⟩
    · exact hsame
    · -- nothing is missing above the entry
      have hsome := PathMap.isSome_of_isPrefix (hpre.trans (List.dropLast_prefix p)) hentry
      rw [hnone] at hsome
      cases hsome

end Emptied

/-- A whiteout that a removal makes is no directory. -/
theorem whiteout_ne_dir_cuts (hp : Unmarked p) (h : fs.upper.get? (whiteoutPath p) ≠ some .dir)
    (hcuts : Cuts p fs fs') : fs'.upper.get? (whiteoutPath p) ≠ some .dir := by
  cases hcuts with
  | mkdir q hq _ _ _ hupd =>
    rwa [hupd.get?_of_ne (hp.dropLast.of_isPrefix hq).ne_whiteoutPath.symm]
  | drop _ _ _ hupd => rwa [hupd.get?_of_ne hp.ne_whiteoutPath.symm]
  | mark _ _ _ hupd => simp [hupd.get?_self]

theorem exists_run_removeFile {c : Bytes} (hp : Unmarked p)
    (hentry : fs.upper.get? p = some (.file c)) :
    ∃ fs', (LayerFS.removeFile p : VfsM Stack Unit).run fs = .ok () fs' ∧ Emptied fs fs' p := by
  obtain ⟨⟨⟩, fs', hrun⟩ := returns_removeFile_iff.mpr (Or.inr ⟨c, hentry⟩)
  refine ⟨fs', hrun, Emptied.of_removed ((removeFile_spec fs p).ok rfl hrun) (by simp [hentry]) ?_⟩
  contrapose
  intro hfile
  exact (removeFile_keeps fun _ _ => whiteout_ne_dir_cuts hp).ok hfile hrun

/-- The end of `remove_dir_recursive`: a directory goes in which there are only markers left. -/
theorem exists_run_sweep (hp : Unmarked p) (hne : p ≠ []) (hdir : fs.upper.get? p = some .dir)
    (hmarkers : ∀ m, IsMarker m → fs.upper.get? (p ++ [m]) ≠ some .dir)
    (hempty : ∀ n, ¬ IsMarker n → fs.upper.get? (p ++ [n]) = none) :
    ∃ fs', (do onUpper (removeMarkers p); LayerFS.removeDir p :
        VfsM Stack Unit).run fs = .ok () fs' ∧
      Emptied fs fs' p := by
  obtain ⟨u, hsweep, hgone, hsame⟩ := exists_run_removeMarkers hdir hmarkers
  -- the directory is there still, and is empty now
  have hself : u.get? p = some .dir := by
    rw [hsame p, hdir]
    rintro m - he
    simpa using congrArg List.length he
  have hchildren : u.children p = [] := by
    rw [PathMap.children_eq_nil]
    intro n
    by_cases hn : IsMarker n
    · exact hgone n hn
    · rw [hsame (p ++ [n]), hempty n hn]
      rintro m hm he
      obtain rfl : n = m := by simpa using he
      exact hn hm
  let fs₁ : Stack := { fs with upper := u }
  have hmarker : u.get? (whiteoutPath p) = fs.upper.get? (whiteoutPath p) := by
    apply hsame
    intro m _ he
    have hlen := congrArg List.length he
    simp only [whiteoutPath, splitPath, List.length_append, List.length_dropLast, List.length_cons,
      List.length_nil] at hlen
    have hpos := List.length_pos_of_ne_nil hne
    omega
  obtain ⟨⟨⟩, fs', hrun⟩ := returns_removeDir_iff.mpr (Or.inr ⟨hself, hne, hchildren⟩ :
    (fs₁.upper.get? p = none ∧ _) ∨ _)
  refine ⟨fs', run_bind_eq_ok.mpr ⟨(), fs₁, run_onPart_eq_ok.mpr ⟨u, hsweep, rfl⟩, hrun⟩, ?_⟩
  have hemptied : Emptied fs₁ fs' p := by
    refine Emptied.of_removed ((removeDir_spec fs₁ p).ok rfl hrun) (by simp [fs₁, hself]) ?_
    contrapose
    intro hfile
    exact (removeDir_keeps fun _ _ => whiteout_ne_dir_cuts hp).ok hfile hrun
  refine ⟨hemptied.lower, hemptied.entry, hemptied.marker, fun h => ?_, fun q hpq hq => ?_⟩
  · rw [← hmarker]
    exact hemptied.file h
  · rw [hemptied.rest q hpq hq]
    apply hsame
    rintro m - rfl
    exact hpq (List.prefix_append p [m])

/-! ### A set of removals -/

/-- The relative paths that the upper layer has something at, below `src`. -/
def HeldBelow (fs : Stack) (src : Path) : Set Path :=
  { r | NoMarker r ∧ fs.upper.get? (src ++ r) ≠ none }

/-- The whole directory can be removed: below it only the upper layer shows something, and that
hides none of its own entries and has no directory under the name of a marker; what it shows can
be listed, and there is no regular file above. -/
structure Removable (fs : Stack) (src : Path) : Prop where
  bare : Bare fs src
  clear : ∀ r ∈ HeldBelow fs src, fs.upper.hides (src ++ r) = false
  marker : ∀ r m, NoMarker r → IsMarker m → fs.upper.get? (src ++ r ++ [m]) ≠ some .dir
  listed : ∀ r, NoMarker r → view fs (src ++ r) = some .dir → ¬ FileInTheWay fs (src ++ r)
  free : ¬ Blocked fs src

namespace OnlyBelow

variable {dest : Path}

/-! Changes at and below `dest` leave alone what a removal of `src` depends on. -/

theorem bare_iff (h : OnlyBelow fs dest fs') (ha : Apart src dest) : Bare fs' src ↔ Bare fs src := by
  have hopq : ∀ q, q <+: src.dropLast →
      fs'.upper.get? (opaquePath q) = fs.upper.get? (opaquePath q) := by
    intro q hq
    apply h.get?_opaquePath ha.target
    exact ha.not_prefix_of_above (hq.trans (List.dropLast_prefix src))
  constructor
  · intro hbare
    exact hbare.of_agree h.lower.symm fun q hq => (hopq q hq).symm
  · intro hbare
    exact hbare.of_agree h.lower hopq

theorem blocked_iff (h : OnlyBelow fs dest fs') (ha : Apart src dest) :
    Blocked fs' src ↔ Blocked fs src := by
  have hoff : ∀ q, q <+: src.dropLast → ¬ dest <+: q ∧ q ≠ whiteoutPath dest := fun q hq =>
    ⟨ha.not_prefix_of_above (hq.trans (List.dropLast_prefix src)),
      (ha.source.dropLast.of_isPrefix hq).ne_whiteoutPath⟩
  constructor
  · rintro ⟨q, c, hq, hfile⟩
    rcases h.off q (hoff q hq).1 (hoff q hq).2 with hsame | ⟨-, hdir, -⟩
    · exact ⟨q, c, hq, hsame ▸ hfile⟩
    · rw [hdir] at hfile
      cases hfile
  · rintro ⟨q, c, hq, hfile⟩
    refine ⟨q, c, hq, ?_⟩
    rw [h.get?_of_isSome (hoff q hq).1 (hoff q hq).2 (by simp [hfile]), hfile]

theorem removable_iff (h : OnlyBelow fs dest fs') (ha : Apart src dest) :
    Removable fs' src ↔ Removable fs src := by
  -- a call that changes only what is below `dest` changes nothing at or below the source
  have hget : ∀ q, src <+: q → fs'.upper.get? q = fs.upper.get? q :=
    fun q hq => h.get?_of_apart ha.symm hq
  have hheld : HeldBelow fs' src = HeldBelow fs src := by
    ext r
    simp only [HeldBelow, Set.mem_ofPred_eq, hget _ (List.prefix_append src r)]
  have hhides : ∀ r, NoMarker r → fs'.upper.hides (src ++ r) = fs.upper.hides (src ++ r) :=
    fun r hr => h.hides ha.target (ha.unmarked hr) (ha.symm.not_prefix r)
  have hmarker : ∀ r m, fs'.upper.get? (src ++ r ++ [m]) = fs.upper.get? (src ++ r ++ [m]) := by
    intro r m
    apply hget
    rw [List.append_assoc]
    exact List.prefix_append src _
  constructor
  · intro hrem
    refine ⟨(h.bare_iff ha).mp hrem.bare, fun r hr => ?_, fun r m hr hm => ?_,
      fun r hr hview => ?_, mt (h.blocked_iff ha).mpr hrem.free⟩
    · rw [← hhides r hr.1]
      exact hrem.clear r (hheld ▸ hr)
    · rw [← hmarker r m]
      exact hrem.marker r m hr hm
    · rw [← h.fileInTheWay_iff ha.symm]
      exact hrem.listed r hr ((h.view_of_apart ha.symm hr).trans hview)
  · intro hrem
    refine ⟨(h.bare_iff ha).mpr hrem.bare, fun r hr => ?_, fun r m hr hm => ?_,
      fun r hr hview => ?_, mt (h.blocked_iff ha).mp hrem.free⟩
    · rw [hhides r hr.1]
      exact hrem.clear r (hheld ▸ hr)
    · rw [hmarker r m]
      exact hrem.marker r m hr hm
    · rw [h.fileInTheWay_iff ha.symm]
      exact hrem.listed r hr ((h.view_of_apart ha.symm hr).symm.trans hview)

end OnlyBelow

/-- Of what the upper layer of `fs₀` holds below `src`, the paths in `S` are gone, and the others
are as they were and not hidden. -/
structure Cleared (fs₀ : Stack) (src : Path) (S : Set Path) (fs : Stack) : Prop where
  held : S ⊆ HeldBelow fs₀ src
  lower : fs.lower = fs₀.lower
  gone : ∀ r ∈ S, fs.upper.get? (src ++ r) = none
  kept : ∀ r, NoMarker r → r ∉ S → fs.upper.get? (src ++ r) = fs₀.upper.get? (src ++ r)
  clear : ∀ r ∈ HeldBelow fs₀ src, r ∉ S → fs.upper.hides (src ++ r) = false
  opaques : ∀ r, NoMarker r → r ∉ S →
    fs.upper.get? (opaquePath (src ++ r)) = fs₀.upper.get? (opaquePath (src ++ r))
  marker : ∀ r m, NoMarker r → IsMarker m → fs.upper.get? (src ++ r ++ [m]) ≠ some .dir
  whiteout : [] ∈ S → existsInLower src fs₀ = true → fs.upper.hides src = true
  rest : ∀ q, ¬ src <+: q → q ≠ whiteoutPath src → fs.upper.get? q = fs₀.upper.get? q

namespace Cleared

/-- What is gone has nothing below it. -/
theorem mem_of_isPrefix (h : Cleared fs₀ src S fs) (hs : s ∈ S) (hr : r ∈ HeldBelow fs₀ src)
    (hsr : s <+: r) : r ∈ S := by
  by_contra hrS
  have hnone : fs.upper.get? (src ++ r) = none :=
    PathMap.get?_eq_none_of_isPrefix ((List.prefix_append_right_inj src).mpr hsr) (h.gone s hs)
  rw [h.kept r hr.1 hrS] at hnone
  exact hr.2 hnone

/-- What is left below a directory is below an entry that is listed. -/
theorem mem_or_listed (h : Cleared fs₀ src S fs) {l : List Name}
    (hl : FileSystem.readDir fs (src ++ r) = .ok l) (hs : s ∈ HeldBelow fs₀ src)
    (hpre : r ++ [n] <+: s) : s ∈ S ∨ n ∈ l := by
  have hn : NoMarker (r ++ [n]) := hs.1.of_isPrefix hpre
  by_cases hnS : r ++ [n] ∈ S
  · exact Or.inl (h.mem_of_isPrefix hnS hs hpre)
  · right
    have hentry : (fs₀.upper.get? (src ++ (r ++ [n]))).isSome :=
      PathMap.isSome_of_isPrefix ((List.prefix_append_right_inj src).mpr hpre)
        (Option.isSome_iff_ne_none.mpr hs.2)
    apply (mem_readDir (hn n (by simp)) hl).mpr
    left
    rwa [List.append_assoc, h.kept _ hn hnS]

/-- A directory below which everything is gone has only markers left in it. -/
theorem get?_concat (h : Cleared fs₀ src S fs) (hr : NoMarker r)
    (hbelow : ∀ s ∈ HeldBelow fs₀ src, r <+: s → s ≠ r → s ∈ S) (hn : ¬ IsMarker n) :
    fs.upper.get? (src ++ r ++ [n]) = none := by
  rw [List.append_assoc]
  by_contra hentry
  have hn := hr.concat hn
  by_cases hnS : r ++ [n] ∈ S
  · exact hentry (h.gone _ hnS)
  · rw [h.kept _ hn hnS] at hentry
    exact hnS (hbelow _ ⟨hn, hentry⟩ (List.prefix_append r [n]) (by simp))

/-- What is not shown is gone already, or was never there. -/
theorem below_subset (h : Cleared fs₀ src S fs) (hr : NoMarker r)
    (hview : view fs (src ++ r) = none) : Below (HeldBelow fs₀ src) r ⊆ S := by
  rintro s ⟨hs, hrs⟩
  by_contra hsS
  have hrS : r ∉ S := fun hrS => hsS (h.mem_of_isPrefix hrS hs hrs)
  have hentry : (fs₀.upper.get? (src ++ r)).isSome :=
    PathMap.isSome_of_isPrefix ((List.prefix_append_right_inj src).mpr hrs)
      (Option.isSome_iff_ne_none.mpr hs.2)
  have hclear := h.clear r ⟨hr, Option.isSome_iff_ne_none.mp hentry⟩ hrS
  obtain ⟨node, hnode⟩ := Option.isSome_iff_exists.mp hentry
  rw [view_of_upper hclear ((h.kept r hr hrS).trans hnode)] at hview
  cases hview

section

variable (hrem : Removable fs₀ src) (hsrc : Unmarked src) (hne : src ≠ [])

include hrem in
theorem start : Cleared fs₀ src ∅ fs₀ where
  held := Set.empty_subset _
  lower := rfl
  gone := by simp
  kept := fun _ _ _ => rfl
  clear := fun r hr _ => hrem.clear r hr
  opaques := fun _ _ _ => rfl
  marker := hrem.marker
  whiteout := by simp
  rest := fun _ _ _ => rfl

include hsrc hne

include hrem in
theorem bare (h : Cleared fs₀ src S fs) : Bare fs src := by
  apply hrem.bare.of_agree h.lower
  intro q hq
  apply h.rest
  · rw [opaquePath, List.prefix_concat_iff]
    rintro (he | hpre)
    · exact hsrc.ne_opaquePath he
    · exact not_prefix_dropLast hne (hpre.trans hq)
  · exact hsrc.whiteoutPath_ne_opaquePath.symm

include hrem in
/-- What is shown below the source is there still. -/
theorem get?_of_view (h : Cleared fs₀ src S fs) (hr : NoMarker r) (hnil : r ≠ [])
    {node : Node} (hview : view fs (src ++ r) = some node) :
    r ∉ S ∧ fs.upper.get? (src ++ r) = some node ∧ fs₀.upper.get? (src ++ r) = some node := by
  cases hentry : fs.upper.get? (src ++ r) with
  | none =>
    rw [(h.bare hrem hsrc hne).view_eq_none (List.prefix_append src r) (by simpa using hnil)
      (hsrc.append hne hr) hentry] at hview
    cases hview
  | some entry =>
    obtain rfl : entry = node := by
      rw [view_of_upper (hides_of_view hview) hentry] at hview
      exact Option.some.inj hview
    have hrS : r ∉ S := by
      intro hrS
      rw [h.gone r hrS] at hentry
      cases hentry
    exact ⟨hrS, rfl, h.kept r hr hrS ▸ hentry⟩

/-- One more path is removed, when nothing is left below it. -/
theorem emptied (h : Cleared fs₀ src S fs) (hr : r ∈ HeldBelow fs₀ src) (hrS : r ∉ S)
    (hbelow : ∀ s ∈ HeldBelow fs₀ src, r <+: s → s ≠ r → s ∈ S)
    (hemptied : Emptied fs fs' (src ++ r)) : Cleared fs₀ src (insert r S) fs' := by
  have hpath : ∀ s, NoMarker s → Unmarked (src ++ s) := fun s hs => hsrc.append hne hs
  have hpre : ∀ s, src ++ r <+: src ++ s ↔ r <+: s := fun s => List.prefix_append_right_inj src
  -- what is below `r` and not removed was never there
  have hnone : ∀ s, NoMarker s → r <+: s → s ∉ insert r S → fs₀.upper.get? (src ++ s) = none := by
    intro s hs hrs hsS
    by_contra hentry
    have hsr : s ≠ r := fun he => hsS (Or.inl he)
    exact hsS (Or.inr (hbelow s ⟨hs, hentry⟩ hrs hsr))
  refine ⟨Set.insert_subset hr h.held, hemptied.lower.trans h.lower, ?_, ?_, ?_, ?_, ?_, ?_, ?_⟩
  · intro s hs
    by_cases hrs : r <+: s
    · exact hemptied.below ((hpre s).mpr hrs)
    · have hsS : s ∈ S := hs.resolve_left fun he => hrs (he ▸ List.prefix_refl r)
      rw [hemptied.rest _ (mt (hpre s).mp hrs) (hpath s (h.held hsS).1).ne_whiteoutPath,
        h.gone s hsS]
  · intro s hs hsS
    by_cases hrs : r <+: s
    · rw [hemptied.below ((hpre s).mpr hrs), hnone s hs hrs hsS]
    · rw [hemptied.rest _ (mt (hpre s).mp hrs) (hpath s hs).ne_whiteoutPath,
        h.kept s hs fun hsS' => hsS (Or.inr hsS')]
  · intro s hs hsS
    have hrs : ¬ r <+: s := fun hrs => hs.2 (hnone s hs.1 hrs hsS)
    rw [Tree.hides, hemptied.rest]
    · exact h.clear s hs fun hsS' => hsS (Or.inr hsS')
    · exact (hpath r hr.1).not_prefix_whiteoutPath (mt (hpre s).mp hrs)
    · intro he
      apply hsS
      left
      simpa using (hpath s hs.1).whiteoutPath_inj (hpath r hr.1) he
  · intro s hs hsS
    by_cases hrs : r <+: s
    · have hopaque : src ++ s <+: opaquePath (src ++ s) := List.prefix_append _ _
      rw [hemptied.below (((hpre s).mpr hrs).trans hopaque),
        PathMap.get?_eq_none_of_isPrefix hopaque (hnone s hs hrs hsS)]
    · rw [hemptied.rest, h.opaques s hs fun hsS' => hsS (Or.inr hsS')]
      · rw [opaquePath, List.prefix_concat_iff]
        rintro (he | he)
        · exact (hpath r hr.1).ne_opaquePath he
        · exact hrs ((hpre s).mp he)
      · exact (hpath r hr.1).whiteoutPath_ne_opaquePath.symm
  · intro s m hs hm
    by_cases hbelow : src ++ r <+: src ++ s ++ [m]
    · rw [hemptied.below hbelow]
      simp
    · by_cases hmark : src ++ s ++ [m] = whiteoutPath (src ++ r)
      · have hfile := mt hemptied.file (hmark ▸ h.marker s m hs hm)
        rwa [hmark]
      · rw [hemptied.rest _ hbelow hmark]
        exact h.marker s m hs hm
  · intro hnil hlower
    by_cases hrnil : r = []
    · have hmarker := hemptied.marker
      rw [hrnil, List.append_nil] at hmarker
      apply hmarker
      rwa [existsInLower, h.lower]
    · -- the source cannot go before what is in it
      have hnilS : [] ∈ S := hnil.resolve_left fun he => hrnil he.symm
      exact absurd (h.mem_of_isPrefix hnilS hr List.nil_prefix) hrS
  · intro q hq hqm
    rw [hemptied.rest q fun hrq => hq ((List.prefix_append src r).trans hrq), h.rest q hq hqm]
    rintro rfl
    exact (whiteoutPath_append src r).elim hq hqm

end

end Cleared

/-! ### Removing everything -/

section

variable (hrem : Removable fs₀ src) (hsrc : Unmarked src) (hne : src ≠ [])
include hrem hsrc hne

/-- One entry, given what the recursive call does. -/
theorem exists_run_removeEntry {descend : Path → VfsM Stack Unit} (h : Cleared fs₀ src S fs)
    (hr : NoMarker (r ++ [n]))
    (hdescend : r ++ [n] ∉ S → fs₀.upper.get? (src ++ (r ++ [n])) = some .dir →
      ∃ fs', (descend (src ++ (r ++ [n]))).run fs = .ok () fs' ∧
        Cleared fs₀ src (S ∪ Below (HeldBelow fs₀ src) (r ++ [n])) fs') :
    ∃ fs', (removeEntry descend (src ++ r) n).run fs = .ok () fs' ∧
      Cleared fs₀ src (S ∪ Below (HeldBelow fs₀ src) (r ++ [n])) fs' := by
  rw [run_removeEntry, List.append_assoc]
  cases hview : view fs (src ++ (r ++ [n])) with
  | none =>
    rw [Set.union_eq_left.mpr (h.below_subset hr hview)]
    exact ⟨fs, rfl, h⟩
  | some node =>
    obtain ⟨hrS, hentry, hstart⟩ := h.get?_of_view hrem hsrc hne hr (by simp) hview
    cases node with
    | dir => exact hdescend hrS hstart
    | file c =>
      have hheld : r ++ [n] ∈ HeldBelow fs₀ src := ⟨hr, by simp [hstart]⟩
      -- there is nothing below a file
      have hleaf : ∀ s ∈ HeldBelow fs₀ src, r ++ [n] <+: s → s = r ++ [n] := by
        intro s hs hpre
        by_contra hsr
        obtain ⟨b, hb⟩ := Option.ne_none_iff_exists'.mp hs.2
        have hdir := Tree.get?_of_isPrefix ((List.prefix_append_right_inj src).mpr hpre)
          (by simpa using Ne.symm hsr) hb
        rw [hstart] at hdir
        cases hdir
      have hbelow : Below (HeldBelow fs₀ src) (r ++ [n]) = {r ++ [n]} := by
        ext s
        rw [Set.mem_singleton_iff]
        constructor
        · exact fun hs => hleaf s hs.1 hs.2
        · rintro rfl
          exact ⟨hheld, List.prefix_refl _⟩
      obtain ⟨fs', hrun, hemptied⟩ := exists_run_removeFile (hsrc.append hne hr) hentry
      refine ⟨fs', hrun, ?_⟩
      rw [hbelow, Set.union_singleton]
      apply h.emptied hsrc hne hheld hrS _ hemptied
      intro s hs hpre hsr
      exact absurd (hleaf s hs hpre) hsr

/-- The loop over the entries of a directory. -/
theorem exists_run_removeEntries (descend : Path → VfsM Stack Unit) (l : List Name)
    (h : Cleared fs₀ src S fs) (hr : ∀ n ∈ l, NoMarker (r ++ [n]))
    (hdescend : ∀ n ∈ l, ∀ S fs, Cleared fs₀ src S fs → r ++ [n] ∉ S →
      fs₀.upper.get? (src ++ (r ++ [n])) = some .dir →
      ∃ fs', (descend (src ++ (r ++ [n]))).run fs = .ok () fs' ∧
        Cleared fs₀ src (S ∪ Below (HeldBelow fs₀ src) (r ++ [n])) fs') :
    ∃ fs', (l.forM (removeEntry descend (src ++ r))).run fs = .ok () fs' ∧
      Cleared fs₀ src (S ∪ BelowAny (HeldBelow fs₀ src) r l) fs' := by
  induction l generalizing S fs with
  | nil =>
    refine ⟨fs, rfl, ?_⟩
    simpa [BelowAny] using h
  | cons n l ih =>
    obtain ⟨fs₁, hrun, h₁⟩ := exists_run_removeEntry hrem hsrc hne h (hr n List.mem_cons_self)
      (hdescend n List.mem_cons_self S fs h)
    obtain ⟨fs', hrest, h'⟩ := ih h₁ (fun m hm => hr m (List.mem_cons_of_mem n hm))
      fun m hm => hdescend m (List.mem_cons_of_mem n hm)
    refine ⟨fs', run_bind_eq_ok.mpr ⟨(), fs₁, hrun, hrest⟩, ?_⟩
    rwa [belowAny_cons, ← Set.union_assoc]

/-- A directory of the upper layer that is there still: the call returns when its frames reach
what is below it, and removes all of that. -/
theorem exists_run_removeDirRecursive (frames : Nat) (h : Cleared fs₀ src S fs) (hr : NoMarker r)
    (hrS : r ∉ S) (hdir : fs₀.upper.get? (src ++ r) = some .dir)
    (hframes : ∀ s ∈ Below (HeldBelow fs₀ src) r, s.length < r.length + frames) :
    ∃ fs', (removeDirRecursive frames (src ++ r) : VfsM Stack Unit).run fs = .ok () fs' ∧
      Cleared fs₀ src (S ∪ Below (HeldBelow fs₀ src) r) fs' := by
  have hheld : r ∈ HeldBelow fs₀ src := ⟨hr, by simp [hdir]⟩
  induction frames generalizing r S fs with
  | zero =>
    have := hframes r ⟨hheld, List.prefix_refl r⟩
    omega
  | succ frames ih =>
    have hview : view fs₀ (src ++ r) = some .dir := view_of_upper (hrem.clear r hheld) hdir
    have hfree : ¬ FileInTheWay fs (src ++ r) := by
      rw [FileInTheWay, h.kept r hr hrS, h.opaques r hr hrS, h.lower]
      exact hrem.listed r hr hview
    obtain ⟨l, hl⟩ := exists_readDir hfree
    have hplain : ∀ n ∈ l, NoMarker (r ++ [n]) :=
      fun n hn => hr.concat (not_isMarker_of_mem_readDir hl hn)
    obtain ⟨fs₁, hloop, h₁⟩ := exists_run_removeEntries hrem hsrc hne (removeDirRecursive frames) l
      h hplain fun n hn T fs h hT hdir => by
        refine ih h (hplain n hn) hT hdir ?_ ⟨hplain n hn, by simp [hdir]⟩
        rintro s ⟨hs, hpre⟩
        have := hframes s ⟨hs, (List.prefix_append r [n]).trans hpre⟩
        simp only [List.length_append, List.length_cons, List.length_nil]
        omega
    -- every path below `r` went with the entry it is below
    have hall : ∀ n s, s ∈ HeldBelow fs₀ src → r ++ [n] <+: s → s ∈ S ∨ n ∈ l :=
      fun n s hs hpre => h.mem_or_listed hl hs hpre
    have hrS₁ : r ∉ S ∪ BelowAny (HeldBelow fs₀ src) r l := by
      rintro (hr | ⟨-, n, -, hpre⟩)
      · exact hrS hr
      · exact not_concat_prefix hpre
    have hbelow : ∀ s ∈ HeldBelow fs₀ src, r <+: s → s ≠ r →
        s ∈ S ∪ BelowAny (HeldBelow fs₀ src) r l := by
      intro s hs hpre hsr
      have hmem : s ∈ S ∪ Below (HeldBelow fs₀ src) r := Or.inr ⟨hs, hpre⟩
      rw [← insert_belowAny hheld hall] at hmem
      exact hmem.resolve_left hsr
    have hdir₁ : fs₁.upper.get? (src ++ r) = some .dir := (h₁.kept r hr hrS₁).trans hdir
    obtain ⟨fs', hsweep, hemptied⟩ := exists_run_sweep (hsrc.append hne hr) (by simp [hne]) hdir₁
      (fun m hm => h₁.marker r m hr hm) fun n hn => h₁.get?_concat hr hbelow hn
    refine ⟨fs', ?_, ?_⟩
    · rw [removeDirRecursive_succ]
      exact run_bind_eq_ok.mpr ⟨l, fs, run_ask_eq_ok.mpr ⟨hl, rfl⟩,
        run_bind_eq_ok.mpr ⟨(), fs₁, hloop, hsweep⟩⟩
    · have h' := h₁.emptied hsrc hne hheld hrS₁ hbelow hemptied
      rwa [insert_belowAny hheld hall] at h'

/-- A source that the upper layer does not have: nothing is removed, and it is whited out. -/
theorem exists_run_removeDirRecursive_none (frames : Nat) (hview : view fs₀ src = some .dir)
    (hnone : fs₀.upper.get? src = none) :
    ∃ fs', (removeDirRecursive (frames + 1) src : VfsM Stack Unit).run fs₀ = .ok () fs' ∧
      Removed fs₀ fs' src := by
  have hlisted := hrem.listed [] (by simp [NoMarker]) (by simpa using hview)
  rw [List.append_nil] at hlisted
  obtain ⟨l, hl⟩ := exists_readDir hlisted
  -- nothing is shown below, so the loop over the entries does nothing
  have hloop : ∀ l : List Name, (∀ n ∈ l, ¬ IsMarker n) →
      (l.forM (removeEntry (removeDirRecursive frames) src)).run fs₀ = .ok () fs₀ := by
    intro l hplain
    induction l with
    | nil => rfl
    | cons n l ih =>
      refine run_bind_eq_ok.mpr ⟨(), fs₀, ?_, ih fun m hm => hplain m (List.mem_cons_of_mem n hm)⟩
      have hmissing : fs₀.upper.get? (src ++ [n]) = none :=
        PathMap.get?_eq_none_of_isPrefix (List.prefix_append src [n]) hnone
      rw [run_removeEntry, hrem.bare.view_eq_none (List.prefix_append src [n]) (by simp)
        (hsrc.concat hne (hplain n List.mem_cons_self)) hmissing]
  obtain ⟨⟨⟩, fs', hrun⟩ := returns_removeDir_iff.mpr (Or.inl ⟨hnone, fun _ => hrem.free⟩)
  refine ⟨fs', ?_, (removeDir_spec fs₀ src).ok rfl hrun⟩
  rw [removeDirRecursive_succ]
  refine run_bind_eq_ok.mpr ⟨l, fs₀, run_ask_eq_ok.mpr ⟨hl, rfl⟩, ?_⟩
  refine run_bind_eq_ok.mpr ⟨(), fs₀, hloop l fun n hn => not_isMarker_of_mem_readDir hl hn, ?_⟩
  refine run_bind_eq_ok.mpr ⟨(), fs₀, run_onPart_eq_ok.mpr ⟨fs₀.upper, ?_, rfl⟩, hrun⟩
  refine run_bind_eq_ok.mpr ⟨false, fs₀.upper, run_ask_eq_ok.mpr ⟨by simp [hnone], rfl⟩, rfl⟩

/-- The source is gone from the upper layer, and whited out if a lower layer holds it. -/
theorem exists_run_removeSource (frames : Nat) (hview : view fs₀ src = some .dir)
    (hframes : ∀ s ∈ HeldBelow fs₀ src, s.length < frames + 1) :
    ∃ fs', (removeDirRecursive (frames + 1) src : VfsM Stack Unit).run fs₀ = .ok () fs' ∧
      fs'.upper.get? src = none ∧ (existsInLower src fs₀ = true → fs'.upper.hides src = true) := by
  cases hentry : fs₀.upper.get? src with
  | none =>
    obtain ⟨fs', hrun, hremoved⟩ :=
      exists_run_removeDirRecursive_none hrem hsrc hne frames hview hentry
    exact ⟨fs', hrun, hremoved.entry, hremoved.marker⟩
  | some node =>
    have hdir : fs₀.upper.get? (src ++ []) = some .dir := by
      rwa [view_of_upper (hides_of_view hview) hentry, ← hentry, ← List.append_nil src] at hview
    have hnil : NoMarker [] := by simp [NoMarker]
    obtain ⟨fs', hrun, h⟩ := exists_run_removeDirRecursive hrem hsrc hne (frames + 1)
      (Cleared.start hrem) hnil (by simp) hdir fun s hs => by simpa using hframes s hs.1
    have hmem : [] ∈ ∅ ∪ Below (HeldBelow fs₀ src) [] :=
      Or.inr ⟨⟨hnil, by simp [hentry]⟩, List.prefix_refl []⟩
    have hgone := h.gone [] hmem
    rw [List.append_nil] at hrun hgone
    exact ⟨fs', hrun, hgone, h.whiteout hmem⟩

end

end Rspacefs
