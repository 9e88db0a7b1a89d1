import Mathlib.Data.List.TakeWhile
import Rspacefs.Core.View

/-!
# Listing against lookup

`read_dir` and `resolve` merge the layers by different rules. The listing takes
every entry of the upper layer, whiteout or not; it looks for an opaque marker
only in the upper layer and only in the directory itself; and within one lower
layer it lets a whiteout hide a name only if the backend enumerates the whiteout
first. `Ghost` describes the names on which the rules differ, in terms of what the
layers hold, and `mem_readDir_iff_existsAt` says there are no others: a name that
lookup finds is always listed.

## Main definitions

* `shownIn` — a layer's enumeration reaches a name before its whiteout
* `Names` — a layer holds an entry or its whiteout
* `Ghost` — the three ways a listed name can be absent

## Main results

* `mem_readDir` — which names a listing has
* `pairwise_readDir` — a listing is strictly sorted
* `mem_readDir_iff_existsAt` — listing and lookup agree on a directory exactly when it
  has no ghosts
-/

namespace Rspacefs

open Lib LayerFS

variable {fs : Stack} {d : Path} {n m : Name} {names l : List Name} {lower : List Tree}
  {acc : Listing}

/-- The enumeration reaches `n`, and does so before the whiteout of `n`. -/
def shownIn (names : List Name) (n : Name) : Bool :=
  decide (n ∈ names.takeWhile (· ≠ whiteoutPrefix ++ n))

theorem shownIn_cons : shownIn (m :: names) n = true ↔
    m ≠ whiteoutPrefix ++ n ∧ (m = n ∨ shownIn names n = true) := by
  unfold shownIn
  by_cases hm : m = whiteoutPrefix ++ n
  · simp [hm]
  · rw [List.takeWhile_cons_of_pos (by simpa using hm)]
    simp only [List.mem_cons, decide_eq_true_eq, ne_eq, hm, not_false_eq_true, true_and,
      eq_comm (a := n)]

theorem mem_of_shownIn (h : shownIn names n = true) : n ∈ names :=
  (List.takeWhile_prefix _).mem (of_decide_eq_true h)

/-- A name with no whiteout beside it is shown. -/
theorem shownIn_of_notMem (hn : n ∈ names) (hw : whiteoutPrefix ++ n ∉ names) :
    shownIn names n = true := by
  unfold shownIn
  rw [List.takeWhile_eq_self_iff.mpr fun m hm => ?_]
  · exact decide_eq_true hn
  · simp only [ne_eq, decide_eq_true_eq]
    rintro rfl
    exact hw hm

/-! ### The accumulators -/

namespace LayerFS.Listing

/-- A name is marked as seen exactly when it was pushed. -/
def Seen (acc : Listing) : Prop := ∀ m, m ∈ acc.seen ↔ m ∈ acc.entries

theorem noteMarker_whiteouts (hn : ¬ IsMarker n) (hm : IsMarker m) :
    n ∈ (acc.noteMarker m).whiteouts ↔ n ∈ acc.whiteouts ∨ m = whiteoutPrefix ++ n := by
  unfold noteMarker
  split
  · rename_i hopq
    have : m ≠ whiteoutPrefix ++ n := hopq ▸ (whiteout_ne_opaqueWhiteout hn).symm
    simp [this]
  · obtain ⟨r, rfl⟩ := hm
    have hstrip : stripWhiteout (whiteoutPrefix ++ r) = some r := stripWhiteout_eq_some.mpr rfl
    simp [hstrip, eq_comm, or_comm]

theorem noteMarker_entries : (acc.noteMarker m).entries = acc.entries := by
  unfold noteMarker
  split <;> rfl

theorem noteMarker_seen (h : acc.Seen) : (acc.noteMarker m).Seen := by
  unfold noteMarker
  split <;> exact h

theorem push_seen (h : acc.Seen) : (acc.push m).Seen := by
  intro k
  simp [push, h k, or_comm]

theorem addUpper_spec (hn : ¬ IsMarker n) (h : acc.Seen) :
    (acc.addUpper m).Seen ∧
    (n ∈ (acc.addUpper m).entries ↔ n ∈ acc.entries ∨ m = n) ∧
    (n ∈ (acc.addUpper m).whiteouts ↔ n ∈ acc.whiteouts ∨ m = whiteoutPrefix ++ n) := by
  unfold addUpper
  split
  · rename_i hm
    have hne : m ≠ n := fun e => hn (e ▸ hm)
    exact ⟨noteMarker_seen h, by simp [noteMarker_entries, hne], noteMarker_whiteouts hn hm⟩
  · rename_i hm
    have hne : m ≠ whiteoutPrefix ++ n := by
      rintro rfl
      exact hm (isMarker_whiteoutPrefix_append n)
    exact ⟨push_seen h, by simp [push, eq_comm], by simp [push, hne]⟩

theorem addLower_spec (hn : ¬ IsMarker n) (h : acc.Seen) :
    (acc.addLower m).Seen ∧
    (n ∈ (acc.addLower m).entries ↔ n ∈ acc.entries ∨ n ∉ acc.whiteouts ∧ m = n) ∧
    (n ∈ (acc.addLower m).whiteouts ↔ n ∈ acc.whiteouts ∨ m = whiteoutPrefix ++ n) := by
  -- a marker is noted, a name that was seen is left out, any other is pushed
  unfold addLower
  split
  · rename_i hm
    have hne : m ≠ n := fun e => hn (e ▸ hm)
    exact ⟨noteMarker_seen h, by simp [noteMarker_entries, hne], noteMarker_whiteouts hn hm⟩
  · rename_i hm
    have hne : m ≠ whiteoutPrefix ++ n := by
      rintro rfl
      exact hm (isMarker_whiteoutPrefix_append n)
    split
    · rename_i hskip
      refine ⟨h, ?_, by simp [hne]⟩
      rw [h m] at hskip
      constructor
      · exact Or.inl
      · rintro (he | ⟨hw, rfl⟩)
        · exact he
        · exact hskip.resolve_right hw
    · rename_i hskip
      refine ⟨push_seen h, ?_, by simp [push, hne]⟩
      simp only [push, List.mem_append, List.mem_singleton]
      constructor
      · rintro (he | rfl)
        · exact Or.inl he
        · exact Or.inr ⟨fun hw => hskip (Or.inr hw), rfl⟩
      · rintro (he | ⟨-, rfl⟩)
        · exact Or.inl he
        · exact Or.inr rfl

/-- Only names that are not markers are entered. -/
def Clean (acc : Listing) : Prop := ∀ m ∈ acc.entries, ¬ IsMarker m

theorem push_clean (h : acc.Clean) (hm : ¬ IsMarker m) : (acc.push m).Clean := by
  intro k hk
  rcases List.mem_append.mp hk with hk | hk
  · exact h k hk
  · rwa [List.mem_singleton.mp hk]

theorem noteMarker_clean (h : acc.Clean) : (acc.noteMarker m).Clean := by
  intro k hk
  rw [noteMarker_entries] at hk
  exact h k hk

theorem foldl_addUpper_clean (names : List Name) (h : acc.Clean) :
    (names.foldl addUpper acc).Clean := by
  induction names generalizing acc with
  | nil => exact h
  | cons m names ih =>
    refine ih ?_
    unfold addUpper
    split
    · exact noteMarker_clean h
    · exact push_clean h ‹_›

theorem foldl_addLower_clean (names : List Name) (h : acc.Clean) :
    (names.foldl addLower acc).Clean := by
  induction names generalizing acc with
  | nil => exact h
  | cons m names ih =>
    refine ih ?_
    unfold addLower
    split
    · exact noteMarker_clean h
    · split
      · exact h
      · exact push_clean h ‹_›

theorem foldl_addUpper_spec (names : List Name) (hn : ¬ IsMarker n) (h : acc.Seen) :
    (names.foldl addUpper acc).Seen ∧
    (n ∈ (names.foldl addUpper acc).entries ↔ n ∈ acc.entries ∨ n ∈ names) ∧
    (n ∈ (names.foldl addUpper acc).whiteouts ↔
      n ∈ acc.whiteouts ∨ whiteoutPrefix ++ n ∈ names) := by
  induction names generalizing acc with
  | nil => simp [h]
  | cons m names ih =>
    obtain ⟨hseen, hentries, hwhiteouts⟩ := addUpper_spec (m := m) hn h
    obtain ⟨ih₁, ih₂, ih₃⟩ := ih hseen
    refine ⟨ih₁, ?_, ?_⟩
    · rw [List.foldl_cons, ih₂, hentries, List.mem_cons, eq_comm (a := n), or_assoc]
    · rw [List.foldl_cons, ih₃, hwhiteouts, List.mem_cons, eq_comm (a := whiteoutPrefix ++ n),
        or_assoc]

theorem foldl_addLower_spec (names : List Name) (hn : ¬ IsMarker n) (h : acc.Seen) :
    (names.foldl addLower acc).Seen ∧
    (n ∈ (names.foldl addLower acc).entries ↔
      n ∈ acc.entries ∨ n ∉ acc.whiteouts ∧ shownIn names n = true) ∧
    (n ∈ (names.foldl addLower acc).whiteouts ↔
      n ∈ acc.whiteouts ∨ whiteoutPrefix ++ n ∈ names) := by
  induction names generalizing acc with
  | nil => simp [h, shownIn]
  | cons m names ih =>
    obtain ⟨hseen, hentries, hwhiteouts⟩ := addLower_spec (m := m) hn h
    obtain ⟨ih₁, ih₂, ih₃⟩ := ih hseen
    have hself : n ≠ whiteoutPrefix ++ n := by
      intro he
      exact hn (he ▸ isMarker_whiteoutPrefix_append n)
    refine ⟨ih₁, ?_, ?_⟩
    · rw [List.foldl_cons, ih₂, hentries, hwhiteouts, shownIn_cons]
      by_cases hw : n ∈ acc.whiteouts
      · simp [hw]
      · by_cases hmn : m = n
        · subst hmn
          simp [hw, hself]
        · simp [hw, hmn]
    · rw [List.foldl_cons, ih₃, hwhiteouts, List.mem_cons, eq_comm (a := whiteoutPrefix ++ n),
        or_assoc]

end LayerFS.Listing

/-! ### No marker is listed -/

section NoMarker

variable {υ ℓ : Type} [FileSystem υ] {fs : LayerFS υ ℓ}

theorem listUpper_clean (h : listUpper d fs = .ok acc) : acc.Clean := by
  obtain ⟨there, -, h⟩ := except_bind_eq_ok.mp h
  split at h
  · obtain ⟨names, -, h⟩ := except_bind_eq_ok.mp h
    cases h
    exact Listing.foldl_addUpper_clean _ (by simp [Listing.Clean])
  · cases h
    simp [Listing.Clean]

variable [FileSystem ℓ]

theorem mergeLower_clean {lower : List ℓ} {acc' : Listing} (hclean : acc.Clean)
    (h : mergeLower d lower acc = .ok acc') : acc'.Clean := by
  induction lower generalizing acc with
  | nil =>
    obtain rfl : acc = acc' := Except.ok.inj h
    exact hclean
  | cons layer rest ih =>
    obtain ⟨there, -, h⟩ := except_bind_eq_ok.mp h
    split at h
    · obtain ⟨names, -, h⟩ := except_bind_eq_ok.mp h
      exact ih (Listing.foldl_addLower_clean _ hclean) h
    · exact ih hclean h

/-- No marker is listed. -/
theorem not_isMarker_of_mem_readDir (h : LayerFS.readDir d fs = .ok l) (hn : n ∈ l) :
    ¬ IsMarker n := by
  obtain ⟨hopq, -, h⟩ := except_bind_eq_ok.mp h
  obtain ⟨acc, hacc, h⟩ := except_bind_eq_ok.mp h
  split at h
  · cases h
    exact listUpper_clean hacc n (List.mem_insertionSort _ |>.mp hn)
  · obtain ⟨acc', hacc', h⟩ := except_bind_eq_ok.mp h
    cases h
    exact mergeLower_clean (listUpper_clean hacc) hacc' n (List.mem_insertionSort _ |>.mp hn)

end NoMarker

/-! ### What a listing has -/

namespace Tree

/-- The layer holds an entry at `p`, or its whiteout. -/
def Names (t : Tree) (p : Path) : Prop := (t.get? p).isSome ∨ t.hides p = true

theorem not_names_iff {t : Tree} {p : Path} :
    ¬ t.Names p ↔ t.get? p = none ∧ t.hides p = false := by
  simp [Names]

theorem shownIn_children_of_get? {t : Tree} (h : (t.get? (d ++ [n])).isSome)
    (hw : t.hides (d ++ [n]) = false) : shownIn (t.children d) n = true := by
  refine shownIn_of_notMem (PathMap.mem_children.mpr h) fun hmem => ?_
  rw [PathMap.mem_children] at hmem
  rw [hides, whiteoutPath_concat, hmem] at hw
  cases hw

end Tree

/-- What the lower layers add to a listing of `d`, once nothing above names `n`. -/
def lowerLists (d : Path) (n : Name) : List Tree → Bool
  | [] => false
  | t :: rest => shownIn (t.children d) n || (!t.hides (d ++ [n]) && lowerLists d n rest)

theorem children_eq_nil_of_none {t : Tree} (h : t.get? d = none) : t.children d = [] :=
  PathMap.children_eq_nil.mpr fun a => PathMap.get?_eq_none_of_isPrefix (List.prefix_append d [a]) h

/-- Layers that have nothing in the directory list nothing. -/
theorem lowerLists_of_childless (h : ∀ t ∈ lower, t.children d = []) :
    lowerLists d n lower = false := by
  induction lower with
  | nil => rfl
  | cons t rest ih =>
    obtain ⟨ht, hrest⟩ := List.forall_mem_cons.mp h
    rw [lowerLists, ht, ih hrest, Bool.and_false, Bool.or_false]
    rfl

/-- One layer's names, whether or not it has the directory. -/
theorem mergeLower_cons {t : Tree} {acc' : Listing}
    (h : mergeLower d (t :: lower) acc = .ok acc') :
    mergeLower d lower ((t.children d).foldl Listing.addLower acc) = .ok acc' := by
  rw [mergeLower, Tree.existsAt_eq] at h
  cases hd : t.get? d with
  | none =>
    rw [children_eq_nil_of_none hd]
    simpa [hd, bind, Except.bind] using h
  | some node =>
    cases node with
    | dir => simpa [hd, bind, Except.bind, Tree.readDir_dir hd] using h
    | file c => simp [hd, bind, Except.bind, Tree.readDir_file hd] at h

theorem mergeLower_spec {acc' : Listing} (hn : ¬ IsMarker n) (hseen : acc.Seen)
    (h : mergeLower d lower acc = .ok acc') :
    n ∈ acc'.entries ↔ n ∈ acc.entries ∨ n ∉ acc.whiteouts ∧ lowerLists d n lower = true := by
  induction lower generalizing acc with
  | nil =>
    obtain rfl : acc = acc' := Except.ok.inj h
    simp [lowerLists]
  | cons t rest ih =>
    obtain ⟨hseen', hentries, hwhiteouts⟩ :=
      Listing.foldl_addLower_spec (t.children d) hn hseen
    have hmark : whiteoutPrefix ++ n ∈ t.children d ↔ t.hides (d ++ [n]) = true := by
      rw [PathMap.mem_children, Tree.hides, whiteoutPath_concat]
    rw [ih hseen' (mergeLower_cons h), hentries, hwhiteouts, hmark, lowerLists]
    by_cases hw : n ∈ acc.whiteouts <;> simp [hw, or_assoc]

theorem listUpper_eq (h : listUpper d fs = .ok acc) :
    acc = (fs.upper.children d).foldl Listing.addUpper {} := by
  rw [listUpper, Tree.existsAt_eq] at h
  cases hd : fs.upper.get? d with
  | none =>
    rw [children_eq_nil_of_none hd]
    simpa [hd, bind, Except.bind, pure, Except.pure, eq_comm] using h
  | some node =>
    cases node with
    | dir =>
      simpa [hd, bind, Except.bind, pure, Except.pure, Tree.readDir_dir hd, eq_comm] using h
    | file c => simp [hd, bind, Except.bind, Tree.readDir_file hd] at h

theorem listUpper_spec (hn : ¬ IsMarker n) (h : listUpper d fs = .ok acc) :
    acc.Seen ∧ (n ∈ acc.entries ↔ (fs.upper.get? (d ++ [n])).isSome) ∧
      (n ∈ acc.whiteouts ↔ fs.upper.hides (d ++ [n]) = true) := by
  have hempty : Listing.Seen {} := fun _ => by simp
  have hacc := listUpper_eq h
  obtain ⟨hseen, hentries, hwhiteouts⟩ :=
    Listing.foldl_addUpper_spec (fs.upper.children d) hn hempty
  refine ⟨hacc ▸ hseen, ?_, ?_⟩
  · rw [hacc, hentries, PathMap.mem_children]
    simp
  · rw [hacc, hwhiteouts, PathMap.mem_children, Tree.hides, whiteoutPath_concat]
    simp

/-- A listing that returns: the upper layer's part, and the lower layers' unless
the upper layer has an opaque marker in the directory. -/
theorem readDir_cases (h : LayerFS.readDir d fs = .ok l) :
    ∃ acc, listUpper d fs = .ok acc ∧
      ((fs.upper.get? (opaquePath d)).isSome ∧ l = acc.entries.insertionSort (· ≤ ·) ∨
        fs.upper.get? (opaquePath d) = none ∧ ∃ acc', mergeLower d fs.lower acc = .ok acc' ∧
          l = acc'.entries.insertionSort (· ≤ ·)) := by
  rw [LayerFS.readDir, Tree.existsAt_eq] at h
  cases hacc : listUpper d fs with
  | error e => simp [hacc, bind, Except.bind] at h
  | ok acc =>
    refine ⟨acc, rfl, ?_⟩
    cases hopq : fs.upper.get? (opaquePath d) with
    | some node =>
      refine Or.inl ⟨rfl, ?_⟩
      simpa [hacc, hopq, bind, Except.bind, pure, Except.pure, eq_comm] using h
    | none =>
      refine Or.inr ⟨rfl, ?_⟩
      cases hacc' : mergeLower d fs.lower acc with
      | error e => simp [hacc, hopq, hacc', bind, Except.bind] at h
      | ok acc' =>
        refine ⟨acc', rfl, ?_⟩
        simpa [hacc, hopq, hacc', bind, Except.bind, pure, Except.pure, eq_comm] using h

/-- A listing has the entries of the upper layer, and, unless the upper layer has
an opaque marker in the directory itself, what the lower layers show of names
without a whiteout in the upper layer. -/
theorem mem_readDir (hn : ¬ IsMarker n) (h : LayerFS.readDir d fs = .ok l) :
    n ∈ l ↔ (fs.upper.get? (d ++ [n])).isSome ∨
      fs.upper.get? (opaquePath d) = none ∧ fs.upper.hides (d ++ [n]) = false ∧
        lowerLists d n fs.lower = true := by
  obtain ⟨acc, hacc, ⟨hopq, rfl⟩ | ⟨hopq, acc', hacc', rfl⟩⟩ := readDir_cases h <;>
    obtain ⟨hseen, hentries, hwhiteouts⟩ := listUpper_spec hn hacc
  · have hopq : fs.upper.get? (opaquePath d) ≠ none := Option.isSome_iff_ne_none.mp hopq
    rw [List.mem_insertionSort, hentries]
    simp [hopq]
  · rw [List.mem_insertionSort, mergeLower_spec hn hseen hacc', hentries, hwhiteouts]
    simp [hopq]

/-! ### Listings are sorted -/

namespace LayerFS.Listing

/-- No name is entered twice. -/
theorem push_nodup (h : acc.entries.Nodup) (hm : m ∉ acc.entries) : (acc.push m).entries.Nodup := by
  rw [push, List.nodup_append]
  exact ⟨h, List.nodup_singleton m, fun a ha b hb => by
    rw [List.mem_singleton.mp hb]
    rintro rfl
    exact hm ha⟩

theorem foldl_addUpper_nodup (h : acc.entries.Nodup) (hnames : names.Nodup)
    (hdisjoint : ∀ m ∈ names, m ∉ acc.entries) : (names.foldl addUpper acc).entries.Nodup := by
  induction names generalizing acc with
  | nil => exact h
  | cons m names ih =>
    obtain ⟨hm, hnames⟩ := List.nodup_cons.mp hnames
    have hrest : ∀ k ∈ names, k ∉ acc.entries := fun k hk => hdisjoint k (by simp [hk])
    rw [List.foldl_cons, addUpper]
    split
    · exact ih (by rwa [noteMarker_entries]) hnames (by rwa [noteMarker_entries])
    · refine ih (push_nodup h (hdisjoint m (by simp))) hnames fun k hk => ?_
      rw [push, List.mem_append, List.mem_singleton]
      rintro (hk' | rfl)
      · exact hrest k hk hk'
      · exact hm hk

theorem foldl_addLower_nodup (names : List Name) (h : acc.entries.Nodup) (hseen : acc.Seen) :
    (names.foldl addLower acc).entries.Nodup ∧ (names.foldl addLower acc).Seen := by
  induction names generalizing acc with
  | nil => exact ⟨h, hseen⟩
  | cons m names ih =>
    rw [List.foldl_cons, addLower]
    split
    · exact ih (by rwa [noteMarker_entries]) (noteMarker_seen hseen)
    · split
      · exact ih h hseen
      · rename_i hskip
        exact ih (push_nodup h fun hm => hskip (Or.inl ((hseen m).mpr hm))) (push_seen hseen)

end LayerFS.Listing

theorem mergeLower_nodup {acc' : Listing} (hnodup : acc.entries.Nodup) (hseen : acc.Seen)
    (h : mergeLower d lower acc = .ok acc') : acc'.entries.Nodup := by
  induction lower generalizing acc with
  | nil =>
    obtain rfl : acc = acc' := Except.ok.inj h
    exact hnodup
  | cons t rest ih =>
    obtain ⟨hnodup', hseen'⟩ := Listing.foldl_addLower_nodup (t.children d) hnodup hseen
    exact ih hnodup' hseen' (mergeLower_cons h)

/-- A listing is sorted, and has no name twice. -/
theorem pairwise_readDir (h : LayerFS.readDir d fs = .ok l) : l.Pairwise (· < ·) := by
  suffices hnodup : ∀ entries : List Name, entries.Nodup →
      (entries.insertionSort (· ≤ ·)).Pairwise (· < ·) by
    obtain ⟨acc, hacc, hl⟩ := readDir_cases h
    have hupper : acc.entries.Nodup := by
      rw [listUpper_eq hacc]
      exact Listing.foldl_addUpper_nodup List.nodup_nil (fs.upper.nodup_children d) (by simp)
    have hseen : acc.Seen := (listUpper_spec (n := []) (by decide) hacc).1
    obtain ⟨-, rfl⟩ | ⟨-, acc', hacc', rfl⟩ := hl
    · exact hnodup _ hupper
    · exact hnodup _ (mergeLower_nodup hupper hseen hacc')
  intro entries hnodup
  have hsorted := List.pairwise_insertionSort (· ≤ ·) entries
  have hnodup' := ((List.perm_insertionSort (· ≤ ·) entries).nodup_iff).mpr hnodup
  exact hsorted.imp₂ (fun _ _ => Std.lt_of_le_of_ne) hnodup'

/-! ### Ghosts -/

/-- A lower stack shows `n` exactly through its topmost layer naming `n`. -/
theorem lowerLists_eq_true :
    lowerLists d n lower = true ↔
      ∃ pre t post, lower = pre ++ t :: post ∧ (∀ s ∈ pre, ¬ s.Names (d ++ [n])) ∧
        shownIn (t.children d) n = true := by
  induction lower with
  | nil => simp [lowerLists]
  | cons t rest ih =>
    rw [lowerLists, Bool.or_eq_true, Bool.and_eq_true, Bool.not_eq_true', ih]
    constructor
    · rintro (hshown | ⟨hw, pre, t', post, rfl, hpre, hshown⟩)
      · exact ⟨[], t, rest, rfl, by simp, hshown⟩
      -- the first layer may name it as well, and then it is the topmost
      · by_cases hentry : (t.get? (d ++ [n])).isSome
        · exact ⟨[], t, _, rfl, by simp, Tree.shownIn_children_of_get? hentry hw⟩
        · refine ⟨t :: pre, t', post, rfl, ?_, hshown⟩
          intro s hs
          rcases List.mem_cons.mp hs with rfl | hs
          · simp [Tree.Names, hentry, hw]
          · exact hpre s hs
    · rintro ⟨pre, t', post, hsplit, hpre, hshown⟩
      cases pre with
      | nil =>
        obtain ⟨rfl, rfl⟩ := List.cons.inj hsplit
        exact Or.inl hshown
      | cons s pre =>
        obtain ⟨rfl, rfl⟩ := List.cons.inj hsplit
        have hs := hpre t (by simp)
        rw [Tree.not_names_iff] at hs
        exact Or.inr ⟨hs.2, pre, t', post, rfl, fun s hs => hpre s (by simp [hs]), hshown⟩

/-- Lookup through a lower stack, given the topmost layer naming `n`: an opaque
marker above that layer or a whiteout in it hides the name. -/
theorem isSome_lowerView_of_topmost {pre : List Tree} {t : Tree} (post : List Tree)
    (hn : ¬ IsMarker n) (hpre : ∀ s ∈ pre, ¬ s.Names (d ++ [n])) (hentry : (t.get? (d ++ [n])).isSome) :
    (lowerView (pre ++ t :: post) (d ++ [n])).isSome ↔
      (∀ s ∈ pre, s.opaqueAbove (d ++ [n]) = false) ∧ t.hides (d ++ [n]) = false := by
  have hverdict : ∀ s : Tree, s.lowerVerdict (d ++ [n]) = s.verdict (d ++ [n]) :=
    fun s => Tree.lowerVerdict_eq_verdict (by rwa [splitPath_concat])
  induction pre with
  | nil =>
    obtain ⟨node, hnode⟩ := Option.isSome_iff_exists.mp hentry
    rw [List.nil_append, lowerView_cons, hverdict, Tree.verdict, Tree.decision, hnode]
    cases t.hides (d ++ [n]) <;> simp
  | cons s pre ih =>
    have hs := hpre s (by simp)
    rw [Tree.not_names_iff] at hs
    have ih := ih fun s hs => hpre s (by simp [hs])
    rw [List.cons_append, lowerView_cons, hverdict, Tree.verdict, Tree.decision, hs.1, hs.2]
    cases hopq : s.opaqueAbove (d ++ [n]) with
    | true => simp [hopq]
    | false => simpa [hopq] using ih

/-- A name found through the lower layers is shown by them. -/
theorem lowerLists_of_isSome_lowerView (hn : ¬ IsMarker n)
    (h : (lowerView lower (d ++ [n])).isSome) : lowerLists d n lower = true := by
  induction lower with
  | nil => cases h
  | cons t rest ih =>
    have hverdict : t.lowerVerdict (d ++ [n]) = t.verdict (d ++ [n]) :=
      Tree.lowerVerdict_eq_verdict (by rwa [splitPath_concat])
    rw [lowerView_cons, hverdict, Tree.verdict, Tree.decision] at h
    rw [lowerLists, Bool.or_eq_true, Bool.and_eq_true, Bool.not_eq_true']
    cases hw : t.hides (d ++ [n]) with
    | true => simp [hw] at h
    | false =>
      cases hentry : t.get? (d ++ [n]) with
      | some node => exact Or.inl (Tree.shownIn_children_of_get? (by simp [hentry]) hw)
      | none =>
        cases hopq : t.opaqueAbove (d ++ [n]) with
        | true => simp [hw, hentry, hopq] at h
        | false => exact Or.inr ⟨rfl, ih (by simpa [hw, hentry, hopq] using h)⟩

/-- A name that a listing of `d` shows and lookup does not find. The topmost layer
holding the name or its whiteout has the entry, and
* it is the upper layer, which has the whiteout too;
* it is a lower layer, which has the whiteout too, but enumerates it later;
* it is a lower layer, and a layer above it has an opaque marker in `d` or above `d`,
  other than the upper layer's marker in `d` itself. -/
inductive Ghost (fs : Stack) (d : Path) (n : Name) : Prop
  | upperPair (hentry : (fs.upper.get? (d ++ [n])).isSome)
      (hmarker : fs.upper.hides (d ++ [n]) = true)
  | lowerPair (pre : List Tree) (t : Tree) (post : List Tree)
      (hsplit : fs.lower = pre ++ t :: post)
      (habove : ∀ s ∈ fs.upper :: pre, ¬ s.Names (d ++ [n]))
      (hlisted : fs.upper.get? (opaquePath d) = none)
      (hshown : shownIn (t.children d) n = true) (hmarker : t.hides (d ++ [n]) = true)
  | belowOpaque (pre : List Tree) (t : Tree) (post : List Tree)
      (hsplit : fs.lower = pre ++ t :: post)
      (habove : ∀ s ∈ fs.upper :: pre, ¬ s.Names (d ++ [n]))
      (hlisted : fs.upper.get? (opaquePath d) = none)
      (hshown : shownIn (t.children d) n = true)
      (s : Tree) (hs : s ∈ fs.upper :: pre) (hopq : s.opaqueAbove (d ++ [n]) = true)

/-- The topmost layer naming a path is unique. -/
theorem topmost_unique {p : Path} {pre pre' post post' : List Tree} {t t' : Tree}
    (hpre : ∀ s ∈ pre, ¬ s.Names p) (hpre' : ∀ s ∈ pre', ¬ s.Names p) (ht : t.Names p)
    (ht' : t'.Names p) (h : pre ++ t :: post = pre' ++ t' :: post') :
    pre = pre' ∧ t = t' ∧ post = post' := by
  induction pre generalizing pre' with
  | nil =>
    cases pre' with
    | nil => simpa using h
    | cons s pre' =>
      obtain ⟨rfl, -⟩ := List.cons.inj h
      exact absurd ht (hpre' t (by simp))
  | cons s pre ih =>
    cases pre' with
    | nil =>
      obtain ⟨rfl, -⟩ := List.cons.inj h
      exact absurd ht' (hpre s (by simp))
    | cons s' pre' =>
      rw [List.cons_append, List.cons_append, List.cons.injEq] at h
      obtain ⟨rfl, h⟩ := h
      obtain ⟨rfl, rfl, rfl⟩ := ih (fun s hs => hpre s (by simp [hs]))
        (fun s hs => hpre' s (by simp [hs])) h
      exact ⟨rfl, rfl, rfl⟩

/-- Lookup below an upper layer that does not name the path. -/
theorem view_of_not_names {p : Path} (h : ¬ fs.upper.Names p) :
    view fs p = if fs.upper.opaqueAbove p then none else lowerView fs.lower p := by
  rw [Tree.not_names_iff] at h
  rw [view_eq, Tree.verdict, Tree.decision, h.1, h.2]
  cases fs.upper.opaqueAbove p <;> rfl

/-- Lookup of an entry of the upper layer. -/
theorem isSome_view_of_upper {p : Path} (h : (fs.upper.get? p).isSome) :
    (view fs p).isSome = !fs.upper.hides p := by
  obtain ⟨node, hnode⟩ := Option.isSome_iff_exists.mp h
  rw [view_eq, Tree.verdict, Tree.decision, hnode]
  cases fs.upper.hides p <;> rfl

/-- Whatever lookup finds is listed. -/
theorem mem_readDir_of_isSome_view (hn : ¬ IsMarker n) (h : LayerFS.readDir d fs = .ok l)
    (hview : (view fs (d ++ [n])).isSome) : n ∈ l := by
  rw [mem_readDir hn h]
  by_cases hentry : (fs.upper.get? (d ++ [n])).isSome
  · exact Or.inl hentry
  · right
    have hhides : fs.upper.hides (d ++ [n]) = false := by
      by_contra hw
      rw [Bool.not_eq_false] at hw
      simp [view_eq, Tree.verdict, Tree.decision, hw] at hview
    have hnames : ¬ fs.upper.Names (d ++ [n]) := by simp [Tree.Names, hentry, hhides]
    rw [view_of_not_names hnames] at hview
    split at hview
    · cases hview
    · rename_i hfree
      refine ⟨?_, hhides, ?_⟩
      · by_contra hopq
        exact hfree (Tree.opaqueAbove_concat.mpr
          ⟨d, List.prefix_refl d, Option.isSome_iff_ne_none.mpr hopq⟩)
      · exact lowerLists_of_isSome_lowerView hn hview

/-- A ghost is listed. -/
theorem mem_readDir_of_ghost (hn : ¬ IsMarker n) (h : LayerFS.readDir d fs = .ok l)
    (hghost : Ghost fs d n) : n ∈ l := by
  rw [mem_readDir hn h]
  have hlower : ∀ (pre : List Tree) (t : Tree) (post : List Tree), fs.lower = pre ++ t :: post →
      (∀ s ∈ fs.upper :: pre, ¬ s.Names (d ++ [n])) → fs.upper.get? (opaquePath d) = none →
      shownIn (t.children d) n = true →
      fs.upper.get? (opaquePath d) = none ∧ fs.upper.hides (d ++ [n]) = false ∧
        lowerLists d n fs.lower = true := by
    intro pre t post hsplit habove hlisted hshown
    refine ⟨hlisted, (Tree.not_names_iff.mp (habove fs.upper (by simp))).2, ?_⟩
    exact lowerLists_eq_true.mpr
      ⟨pre, t, post, hsplit, fun s hs => habove s (by simp [hs]), hshown⟩
  cases hghost with
  | upperPair hentry _ => exact Or.inl hentry
  | lowerPair pre t post hsplit habove hlisted hshown _ =>
    exact Or.inr (hlower pre t post hsplit habove hlisted hshown)
  | belowOpaque pre t post hsplit habove hlisted hshown s hs _ =>
    exact Or.inr (hlower pre t post hsplit habove hlisted hshown)

/-- A listed name is found by lookup unless it is a ghost. -/
theorem isSome_view_iff_not_ghost (hn : ¬ IsMarker n) (h : LayerFS.readDir d fs = .ok l)
    (hmem : n ∈ l) : (view fs (d ++ [n])).isSome ↔ ¬ Ghost fs d n := by
  by_cases hentry : (fs.upper.get? (d ++ [n])).isSome
  · -- an entry of the upper layer: only its own whiteout can hide it
    rw [isSome_view_of_upper hentry]
    constructor
    · intro hw hghost
      have habsent : ∀ pre : List Tree, ¬ ∀ s ∈ fs.upper :: pre, ¬ s.Names (d ++ [n]) :=
        fun pre habove => habove fs.upper (by simp) (Or.inl hentry)
      cases hghost with
      | upperPair _ hmarker => simp [hmarker] at hw
      | lowerPair pre _ _ _ habove => exact habsent pre habove
      | belowOpaque pre _ _ _ habove => exact habsent pre habove
    · intro hghost
      by_contra hw
      exact hghost (.upperPair hentry (by simpa using hw))
  · -- the topmost lower layer naming it shows it
    have hlist := (mem_readDir hn h).mp hmem
    obtain ⟨hlisted, hhides, hlists⟩ := hlist.resolve_left hentry
    obtain ⟨pre, t, post, hsplit, hpre, hshown⟩ := lowerLists_eq_true.mp hlists
    have hnames : ¬ fs.upper.Names (d ++ [n]) := by simp [Tree.Names, hentry, hhides]
    have habove : ∀ s ∈ fs.upper :: pre, ¬ s.Names (d ++ [n]) := by
      intro s hs
      rcases List.mem_cons.mp hs with rfl | hs
      · exact hnames
      · exact hpre s hs
    have htop : (t.get? (d ++ [n])).isSome := PathMap.mem_children.mp (mem_of_shownIn hshown)
    have hlower := isSome_lowerView_of_topmost post hn hpre htop
    rw [view_of_not_names hnames, hsplit]
    constructor
    · intro hview hghost
      split at hview
      · cases hview
      · rename_i hnot
        obtain ⟨hopen, hfree⟩ := hlower.mp hview
        cases hghost with
        | upperPair hentry' => exact hentry hentry'
        | lowerPair pre' t' post' hsplit' habove' _ hshown' hmarker' =>
          obtain ⟨rfl, rfl, rfl⟩ := topmost_unique hpre (fun s hs => habove' s (by simp [hs]))
            (Or.inl htop) (Or.inr hmarker') (hsplit.symm.trans hsplit')
          simp [hfree] at hmarker'
        | belowOpaque pre' t' post' hsplit' habove' _ hshown' s hs hopq =>
          obtain ⟨rfl, rfl, rfl⟩ := topmost_unique hpre (fun s hs => habove' s (by simp [hs]))
            (Or.inl htop) (Or.inl (PathMap.mem_children.mp (mem_of_shownIn hshown')))
            (hsplit.symm.trans hsplit')
          rcases List.mem_cons.mp hs with rfl | hs
          · exact hnot hopq
          · simp [hopen s hs] at hopq
    · intro hghost
      have hopq : ∀ s ∈ fs.upper :: pre, s.opaqueAbove (d ++ [n]) = false := by
        intro s hs
        by_contra hopq
        exact hghost (.belowOpaque pre t post hsplit habove hlisted hshown s hs
          (by simpa using hopq))
      rw [hopq fs.upper (by simp)]
      refine hlower.mpr ⟨fun s hs => hopq s (by simp [hs]), ?_⟩
      by_contra hmarker
      exact hghost (.lowerPair pre t post hsplit habove hlisted hshown (by simpa using hmarker))

/-- Listing and lookup agree on a path that can be listed exactly when it has no
ghosts. -/
theorem mem_readDir_iff_existsAt (fs : Stack) (d : Path) (l : List Name)
    (h : LayerFS.readDir d fs = .ok l) :
    (∀ n, ¬ IsMarker n → (n ∈ l ↔ LayerFS.existsAt (d ++ [n]) fs = .ok true)) ↔
      ∀ n, ¬ IsMarker n → ¬ Ghost fs d n := by
  refine forall₂_congr fun n hn => ?_
  rw [existsAt_eq, Except.ok.injEq]
  constructor
  · intro hagree hghost
    have hmem : n ∈ l := mem_readDir_of_ghost hn h hghost
    exact (isSome_view_iff_not_ghost hn h hmem).mp (hagree.mp hmem) hghost
  · intro hghost
    exact ⟨fun hmem => (isSome_view_iff_not_ghost hn h hmem).mpr hghost,
      mem_readDir_of_isSome_view hn h⟩

/-- A lower layer marks `d` opaque, and the layer below it has `d/x`. -/
def opaqueLowerStack : Stack where
  upper := Tree.empty
  lower := [Tree.ofEntries [(["d".toList], .dir), (opaquePath ["d".toList], .file [])],
    Tree.ofEntries [(["d".toList], .dir), (["d".toList, "x".toList], .file [])]]

/-- The same layers without the opaque marker. -/
def plainLowerStack : Stack where
  upper := Tree.empty
  lower := [Tree.ofEntries [(["d".toList], .dir)],
    Tree.ofEntries [(["d".toList], .dir), (["d".toList, "x".toList], .file [])]]

theorem mem_readDir_iff_existsAt_plainLowerStack :
    (∀ n, ¬ IsMarker n →
      (n ∈ ["x".toList] ↔ LayerFS.existsAt (["d".toList] ++ [n]) plainLowerStack = .ok true)) ↔
      ∀ n, ¬ IsMarker n → ¬ Ghost plainLowerStack ["d".toList] n :=
  mem_readDir_iff_existsAt _ _ _ (by rfl)

/-- `d/x` is listed below the opaque marker, and lookup does not find it. -/
theorem readDir_opaqueLowerStack :
    ¬ ∀ (fs : Stack) (d : Path) (l : List Name) (n : Name), view fs d = some .dir →
      LayerFS.readDir d fs = .ok l → ¬ IsMarker n →
        (n ∈ l ↔ LayerFS.existsAt (d ++ [n]) fs = .ok true) := by
  intro h
  have hagree := h opaqueLowerStack ["d".toList] ["x".toList] "x".toList (by decide) rfl (by decide)
  rw [existsAt_eq, Except.ok.injEq] at hagree
  revert hagree
  decide

end Rspacefs
