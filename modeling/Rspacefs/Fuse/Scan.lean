import Rspacefs.Lib.Paging
import Rspacefs.Fuse.Touch

/-!
# Reading a directory page by page

A process that reads a directory asks for as many entries as its buffer takes, and goes on
at the offset of the last one it got. `readdir` makes the whole sorted listing for every
request, and the offset is a position in it. Names that come and go between two requests
move the others: behind a removed name one is skipped, behind a new one is given twice.
When as many names stand up to the last one that was given as the offset counts, the next
page goes on where the last one ended.

## Main definitions

* `Scan`, `Scan.next` — a process that reads a directory, while requests come in between
* `Aligned` — the next page goes on where the last one ended

## Main results

* `slice_of_readdir` — the names of a page are a slice of the listing
* `scan_complete`, `scan_skips` — a scan whose pages are aligned gives every name that
  stays in the directory once, and others need not
-/

namespace Rspacefs

open Lib LayerFS

namespace Fuse

/-! ### One page -/

section Page

variable {υ ℓ : Type} [PhysicalFS υ] [PhysicalFS ℓ] {s : Fuse υ ℓ} {ino : Ino} {path : Path}
  {offset capacity : Nat}

theorem listEntries_names (names : List Name) :
    Triple (fun _ => True) (listEntries path names : FuseM υ ℓ (List (Ino × FileKind × Name)))
      (fun entries _ => entries.map (·.2.2) = names) (fun _ => True) := by
  induction names with
  | nil => exact Triple.pure _ fun _ _ => rfl
  | cons name names ih =>
    refine Triple.bind (R := fun _ _ => True) Triple.true fun kind => ?_
    refine Triple.bind (R := fun _ _ => True) Triple.true fun ino => ?_
    refine Triple.bind ih fun entries => Triple.pure _ fun _ h => ?_
    rw [List.map_cons, h]

/-- The names of the entries that follow those of the directory and of its parent. -/
def properNames (entries : List DirEntry) : List Name :=
  (entries.filter fun e => 2 < e.offset).map (·.name)

/-- The entries of a page, from the list of all entries. -/
def page (all : List (Ino × FileKind × Name)) (offset capacity : Nat) : List DirEntry :=
  ((all.mapIdx fun i (ino, kind, name) => ⟨ino, i + 1, kind, name⟩).drop offset).take capacity

/-- The names of a page are a slice of the listing. -/
theorem properNames_page (own parent : Ino × FileKind × Name)
    (children : List (Ino × FileKind × Name)) :
    properNames (page (own :: parent :: children) offset capacity) =
      slice (children.map (·.2.2)) (offset - 2) (capacity - (2 - offset)) := by
  -- the entries of the children have offsets from 3 on
  have hchildren : ∀ position k, properNames (slice (children.mapIdx fun i child =>
      (⟨child.1, i + 2 + 1, child.2.1, child.2.2⟩ : DirEntry)) position k) =
        slice (children.map (·.2.2)) position k := by
    intro position k
    have hall : ∀ e ∈ slice (children.mapIdx fun i child =>
        (⟨child.1, i + 2 + 1, child.2.1, child.2.2⟩ : DirEntry)) position k,
          decide (2 < e.offset) = true := by
      intro e he
      obtain ⟨i, hi, rfl⟩ := List.mem_mapIdx.mp (List.mem_of_mem_drop (List.mem_of_mem_take he))
      simp
    rw [properNames, List.filter_eq_self.mpr hall, slice, slice, List.map_take, List.map_drop]
    congr 2
    exact List.ext_getElem? fun i => by simp [Function.comp_def]
  rw [page, List.mapIdx_cons, List.mapIdx_cons]
  rcases offset with _ | _ | j
  · rcases capacity with _ | _ | k
    · rfl
    · rfl
    · exact hchildren 0 k
  · rcases capacity with _ | k
    · rfl
    · exact hchildren 0 k
  · rw [show 2 - (j + 2) = 0 by omega]
    exact hchildren j capacity

theorem readdir_page :
    Triple (· = s) (readdir ino offset capacity)
      (fun reply _ => ∃ d names own parent children, s.inodes ino = some d ∧
        readDir s.root d = .ok names ∧ children.map (·.2.2) = names ∧
        reply = .directory (page (own :: parent :: children) offset capacity)) (fun _ => True) := by
  refine pathOf_from trivial fun d hd => ?_
  refine Triple.bind_from (R := fun names _ => readDir s.root d = .ok names) ?_ ?_
  · refine (onRoot_rooted (I := (· = s.root)) (Q := fun names _ => readDir s.root d = .ok names)
      (E := fun _ => True) (Triple.ask (by rintro _ names rfl h; exact h) fun _ _ => trivial)).weaken
      (by rintro _ rfl; rfl) (fun _ _ h => h) fun _ h => h
  · intro names s' hnames
    refine Triple.bind (R := fun _ _ => True) Triple.true fun parentIno => ?_
    refine Triple.bind (R := fun children _ => children.map (·.2.2) = names)
      ((listEntries_names names).weaken (fun _ _ => trivial) (fun _ _ h => h) fun _ h => h)
      fun children => Triple.pure _ fun _ h => ?_
    exact ⟨d, names, _, _, children, hd, hnames, h, rfl⟩

end Page

/-! ### Scans -/

/-- What happens during a scan: the process asks for the next page, or another request
comes in between. -/
inductive ScanEvent
  | request (r : Request)
  | page (capacity : Nat)

/-- A process that reads a directory, and the entries it has got. -/
structure Scan where
  fuse : Fuse Tree Tree
  returned : List DirEntry

namespace Scan

/-- Where the next page goes on: the offset of the last entry. -/
def cookie (s : Scan) : Nat := ((s.returned.getLast?).map (·.offset)).getD 0

/-- The names it has got, without the entries of the directory and of its parent. -/
def names (s : Scan) : List Name := properNames s.returned

/-- The entries of a reply. -/
def entriesOf : Except Errno Reply → List DirEntry
  | .ok (.directory entries) => entries
  | _ => []

theorem entriesOf_cases (r : Except Errno Reply) :
    (∃ entries, r = .ok (.directory entries)) ∨ entriesOf r = [] := by
  unfold entriesOf
  split
  · exact Or.inl ⟨_, rfl⟩
  · exact Or.inr rfl

/-- One event of a scan of the directory `ino`. -/
def next (ino : Ino) (s : Scan) : ScanEvent → Scan
  | .request r => { s with fuse := s.fuse.next r }
  | .page capacity =>
    ⟨s.fuse.next (.readdir ino s.cookie capacity),
      s.returned ++ entriesOf (s.fuse.respond (.readdir ino s.cookie capacity))⟩

end Scan

/-- The names that the overlay lists in the directory. -/
def listing (ino : Ino) (s : Fuse Tree Tree) : List Name :=
  match s.inodes ino with
  | some d => unwrapOr [] (readDir s.root d)
  | none => []

/-- The name is in the directory: the overlay lists it, or finds it and it is no marker. -/
def InDirectory (ino : Ino) (n : Name) (s : Fuse Tree Tree) : Prop :=
  n ∈ listing ino s ∨
    ∃ d, s.inodes ino = some d ∧ ¬ IsMarker n ∧ existsInRoot (d ++ [n]) s = true

/-- At each page the name is in the directory. -/
def StaysIn (ino : Ino) (n : Name) (s : Scan) : ScanEvent → Prop
  | .request _ => True
  | .page _ => InDirectory ino n s.fuse

/-- At each page as many names of the directory sort up to the last name that was given as
the offset counts. -/
def Aligned (ino : Ino) (s : Scan) : ScanEvent → Prop
  | .request _ => True
  | .page _ => (listing ino s.fuse).countP (passed s.names.getLast?) = s.cookie - 2

section Scan

variable {ino : Ino} {n : Name} {s : Scan} {e : ScanEvent} {events : List ScanEvent}
  {offset capacity : Nat} {entries : List DirEntry}

/-- A page, the name in the directory, and the listing that the page is from. -/
theorem respond_readdir {f : Fuse Tree Tree}
    (hok : respond f (.readdir ino offset capacity) = .ok (.directory entries)) :
    (listing ino f).Pairwise (· < ·) ∧ (InDirectory ino n f → n ∈ listing ino f) ∧
      properNames entries = slice (listing ino f) (offset - 2) (capacity - (2 - offset)) ∧
      (entries = [] → 0 < capacity → (listing ino f).length + 2 ≤ offset) := by
  obtain ⟨d, names, own, parent, children, hd, hnames, hchildren, hreply⟩ :=
    next_of_ok readdir_page hok
  obtain rfl : entries = page (own :: parent :: children) offset capacity := by simpa using hreply
  have hlisting : listing ino f = names := by
    rw [listing, hd]
    dsimp only
    rw [hnames, unwrapOr_ok]
  rw [hlisting]
  refine ⟨pairwise_readDir hnames, ?_, by rw [properNames_page, hchildren], fun hnil hpos => ?_⟩
  · rintro (hn | ⟨d', hd', hmarker, hn⟩)
    · rwa [hlisting] at hn
    · obtain rfl : d = d' := Option.some.inj (hd.symm.trans hd')
      have hexists : existsAt f.root (d ++ [n]) = .ok (view f.root (d ++ [n])).isSome :=
        LayerFS.existsAt_eq f.root (d ++ [n])
      rw [existsInRoot, hexists, unwrapOr_ok] at hn
      exact mem_readDir_of_isSome_view hmarker hnames hn
  · rw [page, List.take_eq_nil_iff, List.drop_eq_nil_iff, List.length_mapIdx, List.length_cons,
      List.length_cons, ← List.length_map (·.2.2), hchildren] at hnil
    exact hnil.resolve_left hpos.ne'

/-- The name was given once if it sorts up to the last one that was given, and else it was
not given. -/
def Given (n : Name) (s : Scan) : Prop :=
  s.names.count n = if passed s.names.getLast? n then 1 else 0

theorem given_step (h : Given n s) (hthere : StaysIn ino n s e) (haligned : Aligned ino s e) :
    Given n (s.next ino e) := by
  cases e with
  | request r => exact h
  | page capacity =>
    have hnext : (s.next ino (.page capacity)).names = properNames (s.returned ++
      Scan.entriesOf (s.fuse.respond (.readdir ino s.cookie capacity))) := rfl
    rw [Given, hnext]
    rcases Scan.entriesOf_cases (s.fuse.respond (.readdir ino s.cookie capacity)) with
      ⟨entries, hreply⟩ | hnone
    · obtain ⟨hsorted, hlisted, hpage, -⟩ := respond_readdir (n := n) hreply
      have hcount := count_page (k := capacity - (2 - s.cookie)) hsorted (hlisted hthere) haligned
      have hnames : properNames (s.returned ++ entries) = s.names ++
          slice (listing ino s.fuse) (s.cookie - 2) (capacity - (2 - s.cookie)) := by
        rw [← hpage, properNames, List.filter_append, List.map_append]
        rfl
      rw [hreply, Scan.entriesOf, hnames, List.count_append, h, hcount, List.getLast?_append]
    · rw [hnone, List.append_nil]
      exact h

/-- A scan whose pages are aligned gives a name that stays in the directory at most once,
and when a page comes back empty, once. -/
theorem scan_complete (ino : Ino) (f : Fuse Tree Tree) (events : List ScanEvent) (n : Name)
    (hthere : EachStep (Scan.next ino) (StaysIn ino n) ⟨f, []⟩ events)
    (haligned : EachStep (Scan.next ino) (Aligned ino) ⟨f, []⟩ events) :
    (events.foldl (Scan.next ino) ⟨f, []⟩).names.count n ≤ 1 ∧
      ∀ capacity, 0 < capacity →
        StaysIn ino n (events.foldl (Scan.next ino) ⟨f, []⟩) (.page capacity) →
        Aligned ino (events.foldl (Scan.next ino) ⟨f, []⟩) (.page capacity) →
        (events.foldl (Scan.next ino) ⟨f, []⟩).fuse.respond
            (.readdir ino (events.foldl (Scan.next ino) ⟨f, []⟩).cookie capacity) =
          .ok (.directory []) →
        (events.foldl (Scan.next ino) ⟨f, []⟩).names.count n = 1 := by
  have hgiven : Given n (events.foldl (Scan.next ino) ⟨f, []⟩) :=
    (hthere.and haligned).invariant (I := Given n) (fun s e h hs => given_step h hs.1 hs.2) rfl
  generalize events.foldl (Scan.next ino) ⟨f, []⟩ = s at hgiven
  refine ⟨?_, fun capacity hpos hstays hend hok => ?_⟩
  · rw [hgiven]
    split <;> simp
  · obtain ⟨-, hlisted, -, hall⟩ := respond_readdir (n := n) hok
    have hlength := hall rfl hpos
    -- the offset counts every name of the directory, so all of them were passed
    have hpassed : passed s.names.getLast? n = true := by
      refine List.countP_eq_length.mp ?_ n (hlisted hstays)
      have hle := List.countP_le_length (p := passed s.names.getLast?) (l := listing ino s.fuse)
      have hcount : (listing ino s.fuse).countP (passed s.names.getLast?) = s.cookie - 2 := hend
      omega
    rw [hgiven, if_pos hpassed]

def threeFiles : Fuse Tree Tree := Fuse.new ⟨Tree.ofEntries
  [(["a".toList], .file []), (["b".toList], .file []), (["c".toList], .file [])], []⟩ [] 8

/-- The process gets `a`, another one creates `d`, and the next pages give the rest. -/
def scanWithCreate : List ScanEvent :=
  [.page 3, .request (.create rootIno "d".toList ⟨.writeOnly, false, false⟩), .page 1, .page 10]

theorem scan_complete_threeFiles :
    (scanWithCreate.foldl (Scan.next rootIno) ⟨threeFiles, []⟩).names.count "b".toList = 1 := by
  refine (scan_complete rootIno threeFiles scanWithCreate "b".toList ?_ ?_).2 10 (by decide)
    (Or.inl (by decide)) rfl (by decide)
  · exact ⟨Or.inl (by decide), trivial, Or.inl (by decide), Or.inl (by decide), trivial⟩
  · exact ⟨rfl, trivial, rfl, rfl, trivial⟩

/-- The process gets `a`, which is then removed: the next page begins behind `b`. When `0`
is created instead, it begins with `a` once more. -/
theorem scan_skips :
    let skipping : List ScanEvent :=
      [.page 3, .request (.unlink rootIno "a".toList), .page 10]
    let repeating : List ScanEvent :=
      [.page 3, .request (.create rootIno "0".toList ⟨.writeOnly, false, false⟩), .page 10]
    (EachStep (Scan.next rootIno) (StaysIn rootIno "b".toList) ⟨threeFiles, []⟩ skipping ∧
      (skipping.foldl (Scan.next rootIno) ⟨threeFiles, []⟩).names = ["a".toList, "c".toList] ∧
      (skipping.foldl (Scan.next rootIno) ⟨threeFiles, []⟩).fuse.respond
        (.readdir rootIno (skipping.foldl (Scan.next rootIno) ⟨threeFiles, []⟩).cookie 10) =
        .ok (.directory [])) ∧
    EachStep (Scan.next rootIno) (StaysIn rootIno "a".toList) ⟨threeFiles, []⟩ repeating ∧
      (repeating.foldl (Scan.next rootIno) ⟨threeFiles, []⟩).names =
        ["a".toList, "a".toList, "b".toList, "c".toList] := by
  refine ⟨⟨⟨Or.inl (by decide), trivial, Or.inl (by decide), trivial⟩, by decide, by decide⟩,
    ⟨Or.inl (by decide), trivial, Or.inl (by decide), trivial⟩, by decide⟩

end Scan

end Fuse

end Rspacefs
