import Rspacefs.Lib.Walk
import Rspacefs.Pvc.Blob

/-!
# Captures and the order of enumeration

`walk_and_append` of `rspacefs-pvc/src/capture.rs` as it reads a directory: `read_dir` gives
the entries in an order of its own, each of them or an error, `filter_map(Result::ok)` leaves
the errors out, and what is left is sorted by name. The order has no effect. What was left
out is not in the archive, and the capture returns without it.

## Main definitions

* `Reading` — what `read_dir` and `file_type` give in a directory
* `Host.walkReading`, `Host.captureReading` — the source's functions, over a reading
* `Host.entriesRead` — the entries that are appended
* `Reading.Unread` — an entry could not be read
* `Host.Orderly` — captures are a function of the directory, and complete

## Main results

* `Host.captureLayer_eq_captureReading` — the capture that can read every entry
* `Host.captureReading_isOk_iff` — when a capture returns
* `Host.entriesRead_eq_entriesOf` — the order of enumeration has no effect
* `Host.orderly_iff` — when captures are complete
-/

namespace Rspacefs

open Lib

/-- What is read in a directory on disk. -/
structure Reading where
  /-- `read_dir`, if it succeeds: the entries in the order in which they come, `none` for one
  that cannot be read. -/
  readDir : Path → Option (List (Option Name))
  /-- Does `file_type` of an entry succeed? -/
  typed : Path → Bool

namespace Reading

/-- A directory of which everything can be read. -/
def whole (t : DiskTree) : Reading where
  readDir dir := some ((t.children dir).map some)
  typed _ := true

/-- The children that `walk_and_append` goes through: what could be read, sorted by name. -/
def children (r : Reading) (dir : Path) : Option (List Name) :=
  (r.readDir dir).map fun items => (items.filterMap id).insertionSort (· ≤ ·)

end Reading

namespace Host

variable (host : Host)

/-! ### The capture -/

/-- The loop of `walk_and_append` over the children of a directory. -/
def appendReading (t : DiskTree) (r : Reading) (walk : Path → Nat → WriterM Nat) (dir : Path) :
    List Name → Nat → WriterM Nat
  | [], entries => return entries
  | name :: names, entries =>
    if r.typed (dir ++ [name]) then do
      let entries ← host.appendChild t walk (dir ++ [name]) entries
      appendReading t r walk dir names entries
    else throw .io

/-- `walk_and_append`. The count is the stack frames left. -/
def walkReading (t : DiskTree) (r : Reading) : Nat → Path → Nat → WriterM Nat
  | 0, _, _ => throw (.vfs .stackOverflow)
  | frames + 1, dir, entries =>
    match r.children dir with
    | none => throw .io
    | some names => host.appendReading t r (walkReading t r frames) dir names entries

/-- The walk and the end of the archive. -/
def writeReading (t : DiskTree) (r : Reading) : WriterM Nat := do
  let entries ← host.walkReading t r (depth t + 1) [] 0
  host.writeAll host.tarTrailer
  return entries

/-- `capture_layer` of the directory at `upper_physical`. -/
def captureReading (t : DiskTree) (r : Reading) (opts : CaptureOptions) :
    Except PvcError (CaptureReport × Bytes) :=
  if !host.creates then .error .io
  else if !host.encodes opts.zstdLevel then .error .io
  else
    match (host.writeReading t r).run ⟨⟨opts.zstdLevel, []⟩, [], 0⟩ with
    | .error e _ => .error e
    | .ok entries w => .ok
        (⟨opts.outPath, "sha256:".toList ++ hexText (host.sha256 w.hasher), w.total, entries⟩,
          host.zstd w.inner.level w.inner.fed)

theorem appendReading_whole (t : DiskTree) (walk : Path → Nat → WriterM Nat) (dir : Path)
    (names : List Name) (entries : Nat) :
    host.appendReading t (.whole t) walk dir names entries =
      host.appendChildren t walk dir names entries := by
  induction names generalizing entries with
  | nil => rfl
  | cons name names ih =>
    rw [appendReading, appendChildren, if_pos (show (Reading.whole t).typed _ = true from rfl)]
    simp only [ih]

theorem walkReading_whole (t : DiskTree) (frames : Nat) :
    host.walkReading t (.whole t) frames = host.walkAndAppend t frames := by
  induction frames with
  | zero => rfl
  | succ frames ih =>
    funext dir entries
    have hchildren : (Reading.whole t).children dir = some (sortedChildren t dir) := by
      simp [Reading.children, Reading.whole, sortedChildren, List.filterMap_map]
    rw [walkReading, hchildren, ih]
    exact host.appendReading_whole t _ _ _ _

/-- `captureLayer` is the capture that can read every entry. -/
theorem captureLayer_eq_captureReading (t : DiskTree) (opts : CaptureOptions) :
    host.captureLayer (some t) opts = host.captureReading t (.whole t) opts := by
  rw [captureReading, writeReading, walkReading_whole]
  rfl

/-! ### The entries -/

/-- The entries for the children of a directory. -/
def childrenRead (t : DiskTree) (r : Reading) (below : Path → Except PvcError (List TarEntry))
    (dir : Path) : List Name → Except PvcError (List TarEntry)
  | [] => return []
  | name :: names =>
    if r.typed (dir ++ [name]) then do
      return (← host.childEntries t below (dir ++ [name])) ++
        (← childrenRead t r below dir names)
    else .error .io

/-- The entries for what is below a directory, in the order of the walk. -/
def entriesReadBelow (t : DiskTree) (r : Reading) : Nat → Path → Except PvcError (List TarEntry)
  | 0, _ => .error (.vfs .stackOverflow)
  | frames + 1, dir =>
    match r.children dir with
    | none => .error .io
    | some names => host.childrenRead t r (entriesReadBelow t r frames) dir names

/-- The entries of a directory that is read so. -/
def entriesRead (t : DiskTree) (r : Reading) : Except PvcError (List TarEntry) :=
  host.entriesReadBelow t r (depth t + 1) []

variable {t : DiskTree} {r : Reading} {dir path : Path} {names : List Name}
  {es : List TarEntry}

theorem appends_reading {walk : Path → Nat → WriterM Nat}
    {below : Path → Except PvcError (List TarEntry)} (dir : Path) (names : List Name)
    (h : ∀ path, host.Appends (walk path) (below path)) :
    host.Appends (host.appendReading t r walk dir names)
      (host.childrenRead t r below dir names) := by
  induction names with
  | nil =>
    intro entries n w w' hrun
    cases hrun
    exact ⟨[], rfl, by simp, by simp⟩
  | cons name names ih =>
    intro entries n w w' hrun
    unfold appendReading at hrun
    unfold childrenRead
    split at hrun
    · obtain ⟨k, w₁, hchild, hrest⟩ := run_bind_eq_ok.mp hrun
      obtain ⟨l, hl, rfl, rfl⟩ := host.appends_child _ (h _) _ _ _ _ hchild
      obtain ⟨l', hl', rfl, rfl⟩ := ih _ _ _ _ hrest
      rw [if_pos ‹_›, hl, hl']
      refine ⟨l ++ l', rfl, ?_, by simp⟩
      rw [List.length_append]
      omega
    · cases hrun

/-- What the walk writes and counts. -/
theorem appends_walkReading (frames : Nat) (dir : Path) :
    host.Appends (host.walkReading t r frames dir) (host.entriesReadBelow t r frames dir) := by
  induction frames generalizing dir with
  | zero =>
    intro entries n w w' hrun
    cases hrun
  | succ frames ih =>
    intro entries n w w' hrun
    unfold walkReading at hrun
    unfold entriesReadBelow
    cases hnames : r.children dir with
    | none =>
      rw [hnames] at hrun
      cases hrun
    | some names =>
      rw [hnames] at hrun
      exact host.appends_reading dir names ih _ _ _ _ hrun

/-- What a capture that returns has counted and written. -/
theorem captureReading_eq_ok {opts : CaptureOptions} {report : CaptureReport} {file : Bytes}
    (h : host.captureReading t r opts = .ok (report, file)) :
    ∃ es, host.entriesRead t r = .ok es ∧ report.entries = es.length ∧
      file = host.zstd opts.zstdLevel (host.archive es) := by
  unfold captureReading at h
  split at h
  · cases h
  split at h
  · cases h
  split at h
  · cases h
  · rename_i n w hrun
    cases h
    obtain ⟨es, hes, rfl, rfl⟩ := Appends.archived host (host.appends_walkReading _ _) hrun
    exact ⟨es, hes, rfl, by simp [HashingWriter.feed]⟩

/-! ### When a capture returns -/

/-- Writing these entries, one after the other. -/
def writeEntries (es : List TarEntry) : WriterM Unit :=
  forM es fun e => host.writeAll (host.tarEntry e)

/-- A walk whose entries can be made is the writing of these entries. -/
def Writes (x : Nat → WriterM Nat) (es : Except PvcError (List TarEntry)) : Prop :=
  ∀ l, es = .ok l → ∀ entries, x entries = do
    host.writeEntries l
    return entries + l.length

theorem appendPathWithName_of_record {e : TarEntry} (h : host.record t path = .ok e) :
    host.appendPathWithName t path = host.writeAll (host.tarEntry e) := by
  unfold appendPathWithName
  rw [h]
  exact pure_bind _ _

theorem writes_record (path : Path) :
    host.Writes (fun entries => do host.appendPathWithName t path; return entries + 1)
      (do return [← host.record t path]) := by
  intro l hl entries
  obtain ⟨e, he, hl⟩ := except_bind_eq_ok.mp hl
  cases hl
  simp [host.appendPathWithName_of_record he, writeEntries]

theorem writes_child {walk : Path → Nat → WriterM Nat}
    {below : Path → Except PvcError (List TarEntry)} (path : Path)
    (h : host.Writes (walk path) (below path)) :
    host.Writes (host.appendChild t walk path) (host.childEntries t below path) := by
  intro l hl entries
  unfold childEntries at hl
  unfold appendChild
  split at hl
  · obtain ⟨e, he, hl⟩ := except_bind_eq_ok.mp hl
    obtain ⟨l', hl', hl⟩ := except_bind_eq_ok.mp hl
    cases hl
    simp only [host.appendPathWithName_of_record he, h l' hl', writeEntries, List.forM_cons,
      bind_assoc, List.length_cons, Nat.add_assoc, Nat.add_comm 1]
  · exact host.writes_record path l hl entries
  · exact host.writes_record path l hl entries
  · cases hl
    simp [writeEntries]

theorem writes_reading {walk : Path → Nat → WriterM Nat}
    {below : Path → Except PvcError (List TarEntry)} (dir : Path) (names : List Name)
    (h : ∀ path, host.Writes (walk path) (below path)) :
    host.Writes (host.appendReading t r walk dir names)
      (host.childrenRead t r below dir names) := by
  induction names with
  | nil =>
    intro l hl entries
    cases hl
    simp [appendReading, writeEntries]
  | cons name names ih =>
    intro l hl entries
    unfold childrenRead at hl
    unfold appendReading
    split at hl
    · obtain ⟨l₁, hl₁, hl⟩ := except_bind_eq_ok.mp hl
      obtain ⟨l₂, hl₂, hl⟩ := except_bind_eq_ok.mp hl
      cases hl
      rw [if_pos ‹_›, host.writes_child _ (h _) l₁ hl₁]
      simp only [ih l₂ hl₂, writeEntries, List.forM_append, bind_assoc, pure_bind,
        List.length_append, Nat.add_assoc]
    · cases hl

theorem writes_walkReading (frames : Nat) (dir : Path) :
    host.Writes (host.walkReading t r frames dir) (host.entriesReadBelow t r frames dir) := by
  induction frames generalizing dir with
  | zero =>
    intro l hl
    cases hl
  | succ frames ih =>
    intro l hl entries
    unfold entriesReadBelow at hl
    unfold walkReading
    cases hnames : r.children dir with
    | none =>
      rw [hnames] at hl
      cases hl
    | some names =>
      rw [hnames] at hl
      exact host.writes_reading dir names ih l hl entries

/-- The encoder takes these entries and the end of the archive. -/
def TakesAll (level : Int) (es : List TarEntry) : Prop :=
  Lib.Returns (do host.writeEntries es; host.writeAll host.tarTrailer) ⟨⟨level, []⟩, [], 0⟩

/-- A capture returns when the output can be opened, each entry can be made, and the encoder
takes them all. -/
theorem captureReading_isOk_iff {opts : CaptureOptions} :
    (∃ out, host.captureReading t r opts = .ok out) ↔
      host.creates = true ∧ host.encodes opts.zstdLevel = true ∧
        ∃ es, host.entriesRead t r = .ok es ∧ host.TakesAll opts.zstdLevel es := by
  constructor
  · rintro ⟨⟨report, file⟩, h⟩
    obtain ⟨es, hes, -⟩ := host.captureReading_eq_ok h
    unfold captureReading at h
    split at h
    · cases h
    split at h
    · cases h
    rename_i hcreates hencodes
    refine ⟨by simpa using hcreates, by simpa using hencodes, es, hes, ?_⟩
    split at h
    · cases h
    · rename_i n w hrun
      -- the entries are all written before the trailer
      unfold writeReading at hrun
      rw [host.writes_walkReading _ _ es hes] at hrun
      obtain ⟨k, w₁, hwalk, hrest⟩ := run_bind_eq_ok.mp hrun
      obtain ⟨⟨⟩, w₂, hentries, hpure⟩ := run_bind_eq_ok.mp hwalk
      cases hpure
      obtain ⟨⟨⟩, w₃, hwrite, -⟩ := run_bind_eq_ok.mp hrest
      exact ⟨_, _, run_bind_eq_ok.mpr ⟨_, _, hentries, hwrite⟩⟩
  · rintro ⟨hcreates, hencodes, es, hes, ⟨⟨⟩, w, hrun⟩⟩
    have hwrite : (host.writeReading t r).run ⟨⟨opts.zstdLevel, []⟩, [], 0⟩ =
        .ok es.length w := by
      obtain ⟨⟨⟩, w₁, hentries, htrailer⟩ := run_bind_eq_ok.mp hrun
      unfold writeReading
      rw [host.writes_walkReading _ _ es hes, bind_assoc, run_bind_of_ok hentries, pure_bind,
        run_bind_of_ok htrailer, Nat.zero_add]
      rfl
    simp only [captureReading, hcreates, hencodes, hwrite, Bool.not_true, Bool.false_eq_true,
      if_false]
    exact ⟨_, rfl⟩

end Host

/-! ### What a walk reads -/

namespace Reading

variable {t : DiskTree} {r : Reading} {dir : Path} {names : List Name}

/-- What `read_dir` gives: entries of the directory in some order, none twice, and all of them
unless one cannot be read. -/
structure Enumerates (t : DiskTree) (r : Reading) : Prop where
  listed : ∀ dir items, r.readDir dir = some items → (items.filterMap id).Subperm (t.children dir)
  all : ∀ dir items, r.readDir dir = some items → none ∉ items →
    (items.filterMap id).Perm (t.children dir)

/-- The directories that the walk goes through. -/
inductive Reached (t : DiskTree) (r : Reading) : Path → Prop
  | root : Reached t r []
  | child {dir : Path} {names : List Name} {name : Name} : Reached t r dir →
      r.children dir = some names → name ∈ names → t.get? (dir ++ [name]) = some .dir →
        Reached t r (dir ++ [name])

/-- An entry of a directory that the walk goes through cannot be read. -/
def Unread (t : DiskTree) (r : Reading) : Prop :=
  ∃ dir items, Reached t r dir ∧ r.readDir dir = some items ∧ none ∈ items

/-- Everything can be read, in some order. -/
def AllRead (t : DiskTree) (r : Reading) : Prop :=
  ∀ dir, ∃ names : List Name, r.readDir dir = some (names.map some) ∧ names.Perm (t.children dir)

theorem AllRead.enumerates (h : AllRead t r) : Enumerates t r := by
  have hperm : ∀ dir items, r.readDir dir = some items →
      (items.filterMap id).Perm (t.children dir) := by
    intro dir items hitems
    obtain ⟨names, hnames, hperm⟩ := h dir
    obtain rfl := Option.some.inj (hnames.symm.trans hitems)
    rwa [List.filterMap_map, Function.id_comp, List.filterMap_some]
  exact ⟨fun dir items hitems => (hperm dir items hitems).subperm,
    fun dir items hitems _ => hperm dir items hitems⟩

theorem AllRead.not_unread (h : AllRead t r) : ¬ r.Unread t := by
  rintro ⟨dir, items, -, hitems, hnone⟩
  obtain ⟨names, hnames, -⟩ := h dir
  obtain rfl := Option.some.inj (hnames.symm.trans hitems)
  simp at hnone

theorem allRead_whole (t : DiskTree) : AllRead t (whole t) :=
  fun dir => ⟨t.children dir, rfl, List.Perm.refl _⟩

/-- A directory whose entries come the other way round. -/
def reversed (t : DiskTree) : Reading where
  readDir dir := some ((t.children dir).reverse.map some)
  typed _ := true

theorem allRead_reversed (t : DiskTree) : AllRead t (reversed t) :=
  fun dir => ⟨(t.children dir).reverse, rfl, List.reverse_perm _⟩

theorem Enumerates.isSome (h : Enumerates t r) (hnames : r.children dir = some names) {name : Name}
    (hmem : name ∈ names) : (t.get? (dir ++ [name])).isSome := by
  obtain ⟨items, hitems, rfl⟩ := Option.map_eq_some_iff.mp hnames
  rw [List.mem_insertionSort] at hmem
  exact PathMap.mem_children.mp ((h.listed dir items hitems).subset hmem)

/-- Where nothing is left out, the order of enumeration has no effect. -/
theorem Enumerates.children_eq (h : Enumerates t r) (hread : ¬ r.Unread t)
    (hreached : Reached t r dir) (hnames : r.children dir = some names) :
    names = Host.sortedChildren t dir := by
  obtain ⟨items, hitems, rfl⟩ := Option.map_eq_some_iff.mp hnames
  apply insertionSort_of_perm
  apply h.all dir items hitems
  intro hnone
  exact hread ⟨dir, items, hreached, hitems, hnone⟩

end Reading

namespace Host

open Reading

variable (host : Host) {t : DiskTree} {r r' : Reading} {dir path : Path} {names : List Name}
  {es : List TarEntry} {opts : CaptureOptions} {frames : Nat}

/-- Everything that the walk goes through can be opened and recorded. -/
structure Readable (t : DiskTree) (r : Reading) : Prop where
  opens : ∀ dir, Reached t r dir → (r.readDir dir).isSome
  typed : ∀ dir names, Reached t r dir → r.children dir = some names → ∀ name ∈ names,
    r.typed (dir ++ [name]) = true
  records : ∀ dir names, Reached t r dir → r.children dir = some names → ∀ name ∈ names,
    t.get? (dir ++ [name]) ≠ some .special → ∃ e, host.record t (dir ++ [name]) = .ok e

theorem childEntries_of_childrenRead {below : Path → Except PvcError (List TarEntry)}
    (h : host.childrenRead t r below dir names = .ok es) {name : Name} (hmem : name ∈ names) :
    r.typed (dir ++ [name]) = true ∧ ∃ l, host.childEntries t below (dir ++ [name]) = .ok l := by
  induction names generalizing es with
  | nil => cases hmem
  | cons name' names ih =>
    unfold childrenRead at h
    split at h
    · obtain ⟨l, hl, h⟩ := except_bind_eq_ok.mp h
      obtain ⟨l', hl', -⟩ := except_bind_eq_ok.mp h
      rcases List.mem_cons.mp hmem with rfl | hmem
      · exact ⟨‹_›, l, hl⟩
      · exact ih hl' hmem
    · cases h

theorem below_of_childEntries {below : Path → Except PvcError (List TarEntry)}
    (h : host.childEntries t below path = .ok es) (hdir : t.get? path = some .dir) :
    ∃ l, below path = .ok l := by
  unfold childEntries at h
  rw [hdir] at h
  obtain ⟨e, -, h⟩ := except_bind_eq_ok.mp h
  obtain ⟨l, hl, -⟩ := except_bind_eq_ok.mp h
  exact ⟨l, hl⟩

/-- A walk that made all its entries has made those of each directory it went through. -/
theorem entriesReadBelow_of_reached (h : host.entriesRead t r = .ok es)
    (hreached : Reached t r dir) : ∃ frames l, host.entriesReadBelow t r frames dir = .ok l := by
  induction hreached with
  | root => exact ⟨_, es, h⟩
  | child _ hnames hmem hdir ih =>
    obtain ⟨frames, l, hl⟩ := ih
    cases frames with
    | zero => cases hl
    | succ frames =>
      unfold entriesReadBelow at hl
      rw [hnames] at hl
      obtain ⟨-, l', hl'⟩ := host.childEntries_of_childrenRead hl hmem
      exact ⟨frames, host.below_of_childEntries hl' hdir⟩

theorem readable_of_entriesRead (hread : Enumerates t r) (h : host.entriesRead t r = .ok es) :
    host.Readable t r := by
  -- a directory that is reached was read, whatever the number of frames it was read with
  have hdir : ∀ dir, Reached t r dir → ∃ names frames l, r.children dir = some names ∧
      host.childrenRead t r (host.entriesReadBelow t r frames) dir names = .ok l := by
    intro dir hreached
    obtain ⟨frames, l, hl⟩ := host.entriesReadBelow_of_reached h hreached
    cases frames with
    | zero => cases hl
    | succ frames =>
      unfold entriesReadBelow at hl
      cases hnames : r.children dir with
      | none =>
        rw [hnames] at hl
        cases hl
      | some names =>
        rw [hnames] at hl
        exact ⟨names, frames, l, rfl, hl⟩
  constructor
  · intro dir hreached
    obtain ⟨names, -, -, hnames, -⟩ := hdir dir hreached
    obtain ⟨items, hitems, -⟩ := Option.map_eq_some_iff.mp hnames
    rw [hitems]
    rfl
  · intro dir names hreached hnames name hmem
    obtain ⟨names', frames, l, hnames', hl⟩ := hdir dir hreached
    obtain rfl := Option.some.inj (hnames.symm.trans hnames')
    exact (host.childEntries_of_childrenRead hl hmem).1
  · intro dir names hreached hnames name hmem hspecial
    obtain ⟨names', frames, l, hnames', hl⟩ := hdir dir hreached
    obtain rfl := Option.some.inj (hnames.symm.trans hnames')
    obtain ⟨-, l', hl'⟩ := host.childEntries_of_childrenRead hl hmem
    obtain ⟨n, hn⟩ := Option.isSome_iff_exists.mp (hread.isSome hnames hmem)
    apply host.record_of_childEntries hl' hn
    intro heq
    exact hspecial (hn.trans (congrArg some heq))

theorem exists_childEntries {below : Path → Except PvcError (List TarEntry)}
    (hrecord : t.get? path ≠ some .special → ∃ e, host.record t path = .ok e)
    (hbelow : t.get? path = some .dir → ∃ l, below path = .ok l) :
    ∃ l, host.childEntries t below path = .ok l := by
  unfold childEntries
  split
  · rename_i hdir
    obtain ⟨e, he⟩ := hrecord (by simp [hdir])
    obtain ⟨l, hl⟩ := hbelow hdir
    rw [he, hl]
    exact ⟨e :: l, rfl⟩
  · rename_i hfile
    obtain ⟨e, he⟩ := hrecord (by simp [hfile])
    rw [he]
    exact ⟨[e], rfl⟩
  · rename_i hlink
    obtain ⟨e, he⟩ := hrecord (by simp [hlink])
    rw [he]
    exact ⟨[e], rfl⟩
  · exact ⟨[], rfl⟩

theorem exists_childrenRead {below : Path → Except PvcError (List TarEntry)}
    (h : ∀ name ∈ names, r.typed (dir ++ [name]) = true ∧
      ∃ l, host.childEntries t below (dir ++ [name]) = .ok l) :
    ∃ es, host.childrenRead t r below dir names = .ok es := by
  induction names with
  | nil => exact ⟨[], rfl⟩
  | cons name names ih =>
    obtain ⟨htyped, l, hl⟩ := h name (by simp)
    obtain ⟨l', hl'⟩ := ih fun name' hmem => h name' (by simp [hmem])
    refine ⟨l ++ l', ?_⟩
    rw [childrenRead, if_pos htyped, hl, hl']
    rfl

theorem exists_entriesReadBelow (h : host.Readable t r) (hfits : Fits t frames dir)
    (hdir : t.get? dir = some .dir) (hreached : Reached t r dir) :
    ∃ es, host.entriesReadBelow t r frames dir = .ok es := by
  induction frames generalizing dir with
  | zero =>
    have := hfits dir (List.prefix_refl _) (by rw [hdir]; rfl)
    omega
  | succ frames ih =>
    obtain ⟨items, hitems⟩ := Option.isSome_iff_exists.mp (h.opens dir hreached)
    have hnames : r.children dir = some ((items.filterMap id).insertionSort (· ≤ ·)) := by
      rw [children, hitems]
      rfl
    unfold entriesReadBelow
    rw [hnames]
    apply host.exists_childrenRead
    intro name hmem
    refine ⟨h.typed dir _ hreached hnames name hmem, ?_⟩
    apply host.exists_childEntries (h.records dir _ hreached hnames name hmem)
    intro hchild
    apply ih _ hchild (.child hreached hnames hmem hchild)
    intro p hp hstored
    have := hfits p ((List.prefix_append _ _).trans hp) hstored
    rw [List.length_append, List.length_singleton]
    omega

/-- The entries can be made exactly when the walk can open and record everything. -/
theorem entriesRead_isOk_iff (hread : Enumerates t r) :
    (∃ es, host.entriesRead t r = .ok es) ↔ host.Readable t r := by
  constructor
  · intro h
    obtain ⟨es, hes⟩ := h
    exact host.readable_of_entriesRead hread hes
  · intro h
    exact host.exists_entriesReadBelow h (fits_root t) t.get?_root .root

/-! ### Complete captures -/

theorem childEntries_congr {below below' : Path → Except PvcError (List TarEntry)}
    (h : host.childEntries t below path = .ok es)
    (hbelow : t.get? path = some .dir → ∀ l, below path = .ok l → below' path = .ok l) :
    host.childEntries t below' path = .ok es := by
  unfold childEntries at h ⊢
  split at h
  · rename_i hdir
    obtain ⟨e, he, h⟩ := except_bind_eq_ok.mp h
    obtain ⟨l, hl, h⟩ := except_bind_eq_ok.mp h
    rw [he, hbelow hdir l hl]
    exact h
  · exact h
  · exact h
  · exact h

theorem childrenEntries_of_childrenRead {below below' : Path → Except PvcError (List TarEntry)}
    (h : host.childrenRead t r below dir names = .ok es)
    (hbelow : ∀ name ∈ names, t.get? (dir ++ [name]) = some .dir →
      ∀ l, below (dir ++ [name]) = .ok l → below' (dir ++ [name]) = .ok l) :
    host.childrenEntries t below' dir names = .ok es := by
  induction names generalizing es with
  | nil => exact h
  | cons name names ih =>
    unfold childrenRead at h
    split at h
    · obtain ⟨l, hl, h⟩ := except_bind_eq_ok.mp h
      obtain ⟨l', hl', h⟩ := except_bind_eq_ok.mp h
      rw [childrenEntries, host.childEntries_congr hl (hbelow name (by simp)),
        ih hl' fun name' hmem => hbelow name' (by simp [hmem])]
      exact h
    · cases h

theorem entriesBelow_of_read (hread : Enumerates t r) (hall : ¬ r.Unread t)
    (hreached : Reached t r dir) (h : host.entriesReadBelow t r frames dir = .ok es) :
    host.entriesBelow t frames dir = .ok es := by
  induction frames generalizing dir es with
  | zero => cases h
  | succ frames ih =>
    unfold entriesReadBelow at h
    cases hnames : r.children dir with
    | none =>
      rw [hnames] at h
      cases h
    | some names =>
      rw [hnames] at h
      obtain rfl := hread.children_eq hall hreached hnames
      apply host.childrenEntries_of_childrenRead h
      intro name hmem hdir l hl
      exact ih (.child hreached hnames hmem hdir) hl

/-- Where every entry can be read, the order in which they come has no effect. -/
theorem entriesRead_eq_entriesOf (hread : Enumerates t r) (hall : ¬ r.Unread t)
    (h : host.entriesRead t r = .ok es) : host.entriesOf t = .ok es :=
  host.entriesBelow_of_read hread hall .root h

/-- The names of the entries for a child, if those below it are what the walk meets there. -/
theorem names_childEntries {below : Path → Except PvcError (List TarEntry)}
    (h : host.childEntries t below path = .ok es)
    (hbelow : t.get? path = some .dir → ∀ l, below path = .ok l → l.map TarEntry.name =
      ((PathMap.walk t (sortedChildren t) frames path).filter (·.2 ≠ .special)).map (·.1)) :
    es.map TarEntry.name = (((t.get? path).toList.flatMap fun n =>
      (path, n) :: PathMap.walk t (sortedChildren t) frames path).filter
        (·.2 ≠ .special)).map (·.1) := by
  -- the walk goes below directories only
  have hleaf : ∀ n, t.get? path = some n → n ≠ .dir →
      PathMap.walk t (sortedChildren t) frames path = [] := fun n hn hne =>
    PathMap.walk_of_leaf t.lists_sorted hn hne
  unfold childEntries at h
  cases hstored : t.get? path with
  | none =>
    rw [hstored] at h
    cases h
    rfl
  | some n =>
    rw [hstored] at h
    cases n with
    | dir =>
      obtain ⟨e, he, h⟩ := except_bind_eq_ok.mp h
      obtain ⟨l, hl, h⟩ := except_bind_eq_ok.mp h
      cases h
      rw [List.map_cons, hbelow hstored l hl, host.record_name he]
      simp
    | file content =>
      obtain ⟨e, he, h⟩ := except_bind_eq_ok.mp h
      cases h
      simp [hleaf _ hstored, host.record_name he]
    | link x =>
      obtain ⟨e, he, h⟩ := except_bind_eq_ok.mp h
      cases h
      simp [hleaf _ hstored, host.record_name he]
    | special =>
      cases h
      simp [hleaf _ hstored]

/-- The entries have the names of what the walk meets, sockets and devices apart. -/
theorem names_entriesBelow (h : host.entriesBelow t frames dir = .ok es) :
    es.map TarEntry.name =
      ((PathMap.walk t (sortedChildren t) frames dir).filter (·.2 ≠ .special)).map (·.1) := by
  induction frames generalizing dir es with
  | zero => cases h
  | succ frames ih =>
    unfold entriesBelow at h
    unfold PathMap.walk
    generalize sortedChildren t dir = names at h ⊢
    induction names generalizing es with
    | nil =>
      cases h
      rfl
    | cons name names ihnames =>
      obtain ⟨l, hl, h⟩ := except_bind_eq_ok.mp h
      obtain ⟨l', hl', h⟩ := except_bind_eq_ok.mp h
      cases h
      rw [List.map_append, host.names_childEntries hl fun _ l hl => ih hl, ihnames hl',
        List.flatMap_cons, List.filter_append, List.map_append]

/-- Every directory and regular file is there once, and no directory behind what is in it. -/
structure Complete (t : DiskTree) (es : List TarEntry) : Prop where
  once : ∀ p ≠ [], (t.get? p = some .dir ∨ ∃ content, t.get? p = some (.file content)) →
    (es.map TarEntry.name).count p = 1
  parent_first : (es.map TarEntry.name).Pairwise fun p q => ¬ q <+: p

theorem complete_of_entriesOf (h : host.entriesOf t = .ok es) : Complete t es := by
  have hnames := host.names_entriesBelow h
  constructor
  · intro p hne hstored
    rw [hnames]
    apply List.count_eq_one_of_mem
    · exact (PathMap.nodup_walk t.lists_sorted).sublist (List.filter_sublist.map _)
    · have hmem : ∀ n, t.get? p = some n → n ≠ .special →
          p ∈ ((PathMap.walk t (sortedChildren t) (depth t + 1) []).filter
            (·.2 ≠ .special)).map (·.1) := by
        intro n hn hspecial
        refine List.mem_map.mpr ⟨(p, n), List.mem_filter.mpr ⟨?_, by simpa using hspecial⟩, rfl⟩
        refine (PathMap.mem_walk t.lists_sorted).mpr ⟨List.nil_prefix, hne.symm, ?_, hn⟩
        have := length_le_depth (t := t) (p := p) (by rw [hn]; rfl)
        rw [List.length_nil]
        omega
      rcases hstored with hdir | ⟨content, hfile⟩
      · exact hmem _ hdir (by simp)
      · exact hmem _ hfile (by simp)
  · rw [hnames, List.pairwise_map]
    exact (PathMap.pairwise_walk t.lists_sorted).filter _

/-! ### Captures are complete, or left an entry out -/

/-- A capture that returns has emitted the whole directory, and one that cannot read an entry
fails. -/
structure CapturesAll (t : DiskTree) (opts : CaptureOptions) (r : Reading) : Prop where
  complete : ∀ report file, host.captureReading t r opts = .ok (report, file) →
    ∃ es, host.entriesRead t r = .ok es ∧ report.entries = es.length ∧
      file = host.zstd opts.zstdLevel (host.archive es) ∧ Complete t es
  unread_fails : r.Unread t → ∃ e, host.captureReading t r opts = .error e

/-- Captures are complete, and the same for both orders of enumeration. -/
structure Orderly (t : DiskTree) (opts : CaptureOptions) (r r' : Reading) : Prop where
  first : host.CapturesAll t opts r
  second : host.CapturesAll t opts r'
  same : ∀ out out', host.captureReading t r opts = .ok out →
    host.captureReading t r' opts = .ok out' → host.entriesRead t r = host.entriesRead t r'

/-- Nothing else stands in the way of a capture. -/
structure Archivable (t : DiskTree) (opts : CaptureOptions) (r : Reading) : Prop where
  creates : host.creates = true
  encodes : host.encodes opts.zstdLevel = true
  readable : host.Readable t r
  takes : ∀ es, host.entriesRead t r = .ok es → host.TakesAll opts.zstdLevel es

theorem captures_iff_archivable (hread : Enumerates t r) :
    (∃ out, host.captureReading t r opts = .ok out) ↔ host.Archivable t opts r := by
  rw [captureReading_isOk_iff]
  constructor
  · intro h
    obtain ⟨hcreates, hencodes, es, hes, htakes⟩ := h
    refine ⟨hcreates, hencodes, host.readable_of_entriesRead hread hes, ?_⟩
    intro es' hes'
    obtain rfl := Except.ok.inj (hes.symm.trans hes')
    exact htakes
  · intro h
    obtain ⟨es, hes⟩ := (host.entriesRead_isOk_iff hread).mpr h.readable
    exact ⟨h.creates, h.encodes, es, hes, h.takes es hes⟩

theorem capturesAll_iff (hread : Enumerates t r) :
    host.CapturesAll t opts r ↔ (r.Unread t → ¬ host.Archivable t opts r) := by
  rw [← host.captures_iff_archivable hread]
  constructor
  · intro h hunread hok
    obtain ⟨out, hout⟩ := hok
    obtain ⟨e, he⟩ := h.unread_fails hunread
    cases hout.symm.trans he
  · intro h
    constructor
    · intro report file hcapture
      obtain ⟨es, hes, hentries, hfile⟩ := host.captureReading_eq_ok hcapture
      have hall : ¬ r.Unread t := fun hunread => h hunread ⟨_, hcapture⟩
      have hof := host.entriesRead_eq_entriesOf hread hall hes
      exact ⟨es, hes, hentries, hfile, host.complete_of_entriesOf hof⟩
    · intro hunread
      cases hcapture : host.captureReading t r opts with
      | error e => exact ⟨e, rfl⟩
      | ok out => exact absurd ⟨out, hcapture⟩ (h hunread)

/-- Captures are complete and do not depend on the order of enumeration exactly when nothing is
left out of one that returns. -/
theorem orderly_iff (hread : Enumerates t r) (hread' : Enumerates t r') :
    host.Orderly t opts r r' ↔
      (r.Unread t → ¬ host.Archivable t opts r) ∧ (r'.Unread t → ¬ host.Archivable t opts r') := by
  rw [← host.capturesAll_iff hread, ← host.capturesAll_iff hread']
  constructor
  · intro h
    exact ⟨h.first, h.second⟩
  · intro h
    refine ⟨h.1, h.2, ?_⟩
    intro out out' hout hout'
    have hof : ∀ {r : Reading} {out}, Enumerates t r → host.CapturesAll t opts r →
        host.captureReading t r opts = .ok out → ∃ es, host.entriesRead t r = .ok es ∧
          host.entriesOf t = .ok es := by
      intro r out hread hcaptures hout
      obtain ⟨es, hes, -⟩ := host.captureReading_eq_ok hout
      have hall : ¬ r.Unread t := by
        intro hunread
        obtain ⟨e, he⟩ := hcaptures.unread_fails hunread
        cases hout.symm.trans he
      exact ⟨es, hes, host.entriesRead_eq_entriesOf hread hall hes⟩
    obtain ⟨es, hes, hof₁⟩ := hof hread h.1 hout
    obtain ⟨es', hes', hof₂⟩ := hof hread' h.2 hout'
    rw [hes, hes', ← hof₁, hof₂]

/-- A directory with two files. -/
def twoEntries : DiskTree :=
  (oneEntry (.file (some [7]))).put [['b']] (.file (some [8, 9])) (by decide)
    ⟨.dir, by decide, rfl⟩ (.inr fun c hc => by
      rw [get?_oneEntry] at hc
      simp at hc)

/-- Two readings of the files, in either order. -/
theorem orderly_twoEntries :
    (Reading.whole twoEntries).readDir [] = some [some ['b'], some ['a']] ∧
      (Reading.reversed twoEntries).readDir [] = some [some ['a'], some ['b']] ∧
      emptyHost.Orderly twoEntries ⟨"out".toList, 3⟩ (.whole twoEntries) (.reversed twoEntries) := by
  have hwhole := allRead_whole twoEntries
  have hreversed := allRead_reversed twoEntries
  refine ⟨by decide, by decide,
    (orderly_iff emptyHost hwhole.enumerates hreversed.enumerates).mpr ⟨?_, ?_⟩⟩
  · exact fun h => absurd h hwhole.not_unread
  · exact fun h => absurd h hreversed.not_unread

/-! ### An entry is left out -/

/-- The one entry of the directory cannot be read. -/
def unreadRoot : Reading where
  readDir dir := some (if dir = [] then [none] else [])
  typed _ := true

theorem enumerates_unreadRoot (n : DiskNode) : Enumerates (oneEntry n) unreadRoot where
  listed := by
    intro dir items h
    cases h
    have hnone : List.filterMap id (if dir = [] then [none] else []) = ([] : List Name) := by
      split <;> rfl
    rw [hnone]
    exact List.nil_subperm
  all := by
    intro dir items h hnone
    cases h
    have hne : dir ≠ [] := by
      intro heq
      simp [heq] at hnone
    have hchildren : (oneEntry n).children dir = [] := by
      rw [List.eq_nil_iff_forall_not_mem]
      intro name hmem
      rw [PathMap.mem_children, get?_oneEntry, if_neg, if_neg] at hmem
      · cases hmem
      · simp
      · intro heq
        exact hne (List.append_inj_left' (heq : dir ++ [name] = [] ++ [['a']]) rfl)
    rw [if_neg hne, hchildren]
    exact List.Perm.refl _

theorem unread_unreadRoot (t : DiskTree) : unreadRoot.Unread t :=
  ⟨[], [none], .root, rfl, by simp⟩

/-- A file that could not be listed, and a capture of no entries. -/
theorem unread_left_out :
    Enumerates (oneEntry (.file (some [7]))) unreadRoot ∧
      emptyHost.captureReading (oneEntry (.file (some [7]))) unreadRoot ⟨"out".toList, 3⟩ =
        .ok (emptyReport, emptyFrame) ∧
      ¬ emptyHost.Orderly (oneEntry (.file (some [7]))) ⟨"out".toList, 3⟩ unreadRoot
        unreadRoot := by
  have hcapture : emptyHost.captureReading (oneEntry (.file (some [7]))) unreadRoot
      ⟨"out".toList, 3⟩ = .ok (emptyReport, emptyFrame) := by
    -- nothing is appended, as for an empty directory
    have hwrite : emptyHost.writeReading (oneEntry (.file (some [7]))) unreadRoot =
        emptyHost.writeReading .empty (.whole .empty) := rfl
    rw [captureReading, hwrite, ← capture_emptyHost, captureLayer_eq_captureReading]
    rfl
  refine ⟨enumerates_unreadRoot _, hcapture, ?_⟩
  intro h
  obtain ⟨e, he⟩ := h.first.unread_fails (unread_unreadRoot _)
  cases hcapture.symm.trans he

end Host

end Rspacefs
