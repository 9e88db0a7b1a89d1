import Mathlib.Algebra.GroupWithZero.Nat
import Mathlib.Data.Char
import Mathlib.Data.List.Sort
import Mathlib.Data.List.Lex
import Rspacefs.Pvc.Swap
import Rspacefs.Verity.HexHash
import Rspacefs.Verity.Merkle
import Rspacefs.Vfs.Disk

/-!
# Capturing the upper directory of a PVC

`capture_layer` of `rspacefs-pvc/src/capture.rs`: the upper directory is walked in sorted
order, each entry is appended to a tar archive, and the archive goes through a hashing
writer into a zstd encoder, which is finished when it is dropped. The tar and zstd crates,
SHA-256 and the host are parameters: what an archive and its compressed form look like,
where links lead, and how many bytes a write takes.

## Main definitions

* `Host` — the crates and the host
* `HashingWriter`, `walkAndAppend`, `captureLayer` — the source's definitions
* `Host.entriesOf`, `Host.archive` — the tar archive of a directory
* `Host.Formats` — what the two formats say about how a file starts

## Main results

* `Host.writeAll_eq_ok` — the hasher, the counter and the encoder get the same bytes
* `Host.captureLayer_eq_ok` — what a capture that returns has hashed, counted and written
* `Host.describes_iff` — when the report describes the file
* `Host.report_never_describes` — which it never does
-/

namespace Rspacefs

open Lib

/-- What a tar entry holds. -/
inductive TarBody
  | file (content : Bytes)
  | directory
  | symlink (target : Target)
  /-- A fifo or a device. -/
  | special
  deriving DecidableEq, Repr

structure TarEntry where
  name : Path
  body : TarBody
  deriving DecidableEq, Repr

/-- What the capture calls. -/
structure Host where
  sha256 : Bytes → Hash256
  /-- What `tar::Builder` writes for an entry, and at the end. -/
  tarEntry : TarEntry → Bytes
  tarTrailer : Bytes
  /-- The compressed form, at a level. -/
  zstd : Int → Bytes → Bytes
  /-- What a link of the directory leads to, if an archive can hold that. -/
  leads : Path → Option DiskNode
  /-- Does `File::create` of the output succeed, and `Encoder::new`? -/
  creates : Bool
  encodes : Int → Bool
  /-- How many bytes of a buffer the encoder takes after what it has, if it does not fail. -/
  takes : Bytes → (buf : Bytes) → Option (Fin (buf.length + 1))

structure CaptureOptions where
  outPath : List Char
  zstdLevel : Int
  deriving DecidableEq, Repr

structure CaptureReport where
  outPath : List Char
  digest : List Char
  bytesCompressed : Nat
  entries : Nat
  deriving DecidableEq, Repr

/-- First 4 bytes of a zstd frame (little-endian 0xFD2FB528). -/
def zstdMagic : Bytes := [0x28, 0xB5, 0x2F, 0xFD]

/-- `{:x}` of a hash. -/
def hexText (h : Hash256) : List Char :=
  h.val.flatMap fun b => [Nat.digitChar (b.toNat / 16), Nat.digitChar (b.toNat % 16)]

/-- A hash can be read back from its text. -/
theorem hexText_injective {h h' : Hash256} (heq : hexText h = hexText h') : h = h' := by
  have hread : HexHash.deserialize (HexHash.serialize h) =
      HexHash.deserialize (HexHash.serialize h') := congrArg HexHash.deserialize heq
  rw [HexHash.deserialize_serialize, HexHash.deserialize_serialize] at hread
  exact Except.ok.inj hread

/-! ### The writers -/

/-- `zstd::Encoder`: what was fed to it so far. -/
structure Encoder where
  level : Int
  fed : Bytes

/-- Wraps a writer so every byte written is fed into a sha256 hasher. -/
structure HashingWriter where
  inner : Encoder
  hasher : Bytes
  total : Nat

abbrev WriterM (α : Type) := EStateM PvcError HashingWriter α

/-- The writer after more bytes went through it. -/
def HashingWriter.feed (w : HashingWriter) (buf : Bytes) : HashingWriter where
  inner := { w.inner with fed := w.inner.fed ++ buf }
  hasher := w.hasher ++ buf
  total := w.total + buf.length

@[simp] theorem HashingWriter.feed_nil (w : HashingWriter) : w.feed [] = w := by
  simp [feed]

@[simp] theorem HashingWriter.feed_feed (w : HashingWriter) (buf more : Bytes) :
    (w.feed buf).feed more = w.feed (buf ++ more) := by
  simp [feed, Nat.add_assoc]

namespace Host

variable (host : Host)

def encoderWrite (buf : Bytes) : EStateM PvcError Encoder Nat := do
  let e ← get
  match host.takes e.fed buf with
  | none => throw .io
  | some n =>
    set { e with fed := e.fed ++ buf.take n }
    return (n : Nat)

def hashingWrite (buf : Bytes) : WriterM Nat := do
  let n ← onPart HashingWriter.inner (fun e w => { w with inner := e }) (host.encoderWrite buf)
  modify fun w => { w with hasher := w.hasher ++ buf.take n, total := w.total + n }
  return n

/-- `Write::write_all`. -/
def writeAll (buf : Bytes) : WriterM Unit :=
  if _ : buf = [] then return
  else do
    let n ← host.hashingWrite buf
    if _ : n = 0 then throw .io else writeAll (buf.drop n)
termination_by buf.length
decreasing_by
  have := List.length_pos_of_ne_nil ‹_›
  rw [List.length_drop]
  omega

theorem hashingWrite_eq_ok {buf : Bytes} {n : Nat} {w w' : HashingWriter}
    (h : (host.hashingWrite buf).run w = .ok n w') :
    n ≤ buf.length ∧ w' = w.feed (buf.take n) := by
  simp only [hashingWrite, encoderWrite, EStateM.run_bind, run_onPart, EStateM.run_get] at h
  split at h
  · rename_i htakes
    split at htakes
    · rename_i hrun
      split at hrun
      · cases hrun
      · rename_i k _
        cases hrun
        cases htakes
        cases h
        have hk := k.isLt
        refine ⟨by omega, ?_⟩
        simp [HashingWriter.feed, Nat.min_eq_left (Nat.le_of_lt_succ hk)]
    · cases htakes
  · cases h

/-- What is written has gone through the hasher, the counter and the encoder alike. -/
theorem writeAll_eq_ok {buf : Bytes} {w w' : HashingWriter}
    (h : (host.writeAll buf).run w = .ok () w') : w' = w.feed buf := by
  fun_induction writeAll host buf generalizing w with
  | case1 => cases h; simp
  | case2 buf _ ih =>
    obtain ⟨n, w₁, hwrite, hrest⟩ := run_bind_eq_ok.mp h
    obtain ⟨-, rfl⟩ := host.hashingWrite_eq_ok hwrite
    split at hrest
    · cases hrest
    · rw [ih n ‹_› hrest, HashingWriter.feed_feed, List.take_append_drop]

/-- The encoder goes on taking bytes. -/
def Flowing : Prop := ∀ fed buf, buf ≠ [] → ∃ n, host.takes fed buf = some n ∧ n ≠ 0

/-- An encoder that takes all of what it gets. -/
theorem flowing_of_takesAll (h : ∀ fed buf, host.takes fed buf = some (Fin.last buf.length)) :
    host.Flowing := by
  intro fed buf hne
  refine ⟨_, h fed buf, ?_⟩
  rw [Ne, Fin.ext_iff]
  exact Nat.pos_iff_ne_zero.mp (List.length_pos_of_ne_nil hne)

theorem hashingWrite_eq {buf : Bytes} {w : HashingWriter} {n : Fin (buf.length + 1)}
    (h : host.takes w.inner.fed buf = some n) :
    (host.hashingWrite buf).run w = .ok (n : Nat) (w.feed (buf.take n)) := by
  simp only [hashingWrite, encoderWrite, EStateM.run_bind, run_onPart, EStateM.run_get, h]
  simp [HashingWriter.feed, Nat.min_eq_left (Nat.le_of_lt_succ n.isLt)]

theorem writeAll_eq (hflow : host.Flowing) (buf : Bytes) (w : HashingWriter) :
    (host.writeAll buf).run w = .ok () (w.feed buf) := by
  fun_induction writeAll host buf generalizing w with
  | case1 => simp
  | case2 buf hne ih =>
    obtain ⟨n, hn, hpos⟩ := hflow w.inner.fed buf hne
    have hpos : (n : Nat) ≠ 0 := fun h => hpos (Fin.ext h)
    rw [EStateM.run_bind, host.hashingWrite_eq hn]
    simp only [hpos, dite_false]
    rw [ih n hpos, HashingWriter.feed_feed, List.take_append_drop]

/-! ### The walk -/

/-- What `append_path_with_name` records of a path: links are followed. -/
def record (t : DiskTree) (path : Path) : Except PvcError TarEntry :=
  match (match t.get? path with
    | some (.link _) => host.leads path
    | node => node) with
  | some (.file (some content)) => .ok ⟨path, .file content⟩
  | some .dir => .ok ⟨path, .directory⟩
  | some .special => .ok ⟨path, .special⟩
  | _ => .error .io

def appendPathWithName (t : DiskTree) (path : Path) : WriterM Unit := do
  let entry ← ask fun _ => host.record t path
  host.writeAll (host.tarEntry entry)

/-- What `walk_and_append` does with a child of a directory: an entry, and for a directory
those below it. -/
def appendChild (t : DiskTree) (walk : Path → Nat → WriterM Nat) (path : Path) (entries : Nat) :
    WriterM Nat :=
  match t.get? path with
  | some .dir => do
    host.appendPathWithName t path
    walk path (entries + 1)
  | some (.file _) | some (.link _) => do
    host.appendPathWithName t path
    return entries + 1
  -- other types are skipped
  | _ => return entries

/-- The loop of `walk_and_append` over the children of a directory. -/
def appendChildren (t : DiskTree) (walk : Path → Nat → WriterM Nat) (dir : Path) :
    List Name → Nat → WriterM Nat
  | [], entries => return entries
  | name :: names, entries => do
    let entries ← host.appendChild t walk (dir ++ [name]) entries
    appendChildren t walk dir names entries

/-- The children of a directory, sorted by name. -/
def sortedChildren (t : DiskTree) (dir : Path) : List Name :=
  (t.children dir).insertionSort (· ≤ ·)

/-- Walk `dir` recursively and append each entry. The count is the stack frames left. -/
def walkAndAppend (t : DiskTree) : Nat → Path → Nat → WriterM Nat
  | 0, _, _ => throw (.vfs .stackOverflow)
  | frames + 1, dir, entries =>
    host.appendChildren t (walkAndAppend t frames) dir (sortedChildren t dir) entries

/-- Frames enough for every directory of the tree. -/
def depth (t : DiskTree) : Nat := (t.map.keys.map List.length).foldr max 0

/-- `capture_layer`: the report, and the file. The directory is the one at
`upper_physical`, if that is set. -/
def captureLayer (upper : Option DiskTree) (opts : CaptureOptions) :
    Except PvcError (CaptureReport × Bytes) :=
  match upper with
  | none => .error (.invalidArgument
      "capture_layer requires the PvcMount to have upper_physical set")
  | some t =>
    if !host.creates then .error .io
    else if !host.encodes opts.zstdLevel then .error .io
    else
      -- `into_inner` ends the archive
      let capture : WriterM Nat := do
        let entries ← host.walkAndAppend t (depth t + 1) [] 0
        host.writeAll host.tarTrailer
        return entries
      match capture.run ⟨⟨opts.zstdLevel, []⟩, [], 0⟩ with
      | .error e _ => .error e
      | .ok entries w => .ok
          (⟨opts.outPath, "sha256:".toList ++ hexText (host.sha256 w.hasher), w.total, entries⟩,
            -- dropping the encoder finishes the file
            host.zstd w.inner.level w.inner.fed)

/-! ### The archive -/

/-- The entries for a child of a directory. -/
def childEntries (t : DiskTree) (below : Path → Except PvcError (List TarEntry)) (path : Path) :
    Except PvcError (List TarEntry) :=
  match t.get? path with
  | some .dir => do return (← host.record t path) :: (← below path)
  | some (.file _) | some (.link _) => do return [← host.record t path]
  | _ => return []

def childrenEntries (t : DiskTree) (below : Path → Except PvcError (List TarEntry)) (dir : Path) :
    List Name → Except PvcError (List TarEntry)
  | [] => return []
  | name :: names => do
    return (← host.childEntries t below (dir ++ [name])) ++ (← childrenEntries t below dir names)

/-- The entries for what is below a directory, in the order of the walk. -/
def entriesBelow (t : DiskTree) : Nat → Path → Except PvcError (List TarEntry)
  | 0, _ => .error (.vfs .stackOverflow)
  | frames + 1, dir => host.childrenEntries t (entriesBelow t frames) dir (sortedChildren t dir)

/-- The entries of a directory. -/
def entriesOf (t : DiskTree) : Except PvcError (List TarEntry) :=
  host.entriesBelow t (depth t + 1) []

/-- What `tar::Builder` writes for these entries. -/
def archive (es : List TarEntry) : Bytes := es.flatMap host.tarEntry ++ host.tarTrailer

variable {t : DiskTree}

/-- What a walk that returns has done: its entries are written and counted. -/
def Appends (x : Nat → WriterM Nat) (es : Except PvcError (List TarEntry)) : Prop :=
  ∀ entries n w w', (x entries).run w = .ok n w' →
    ∃ l, es = .ok l ∧ n = entries + l.length ∧ w' = w.feed (l.flatMap host.tarEntry)

theorem appendPathWithName_eq_ok {path : Path} {w w' : HashingWriter}
    (h : (host.appendPathWithName t path).run w = .ok () w') :
    ∃ e, host.record t path = .ok e ∧ w' = w.feed (host.tarEntry e) := by
  obtain ⟨e, w₁, hask, hwrite⟩ := run_bind_eq_ok.mp h
  obtain ⟨hrecord, rfl⟩ := run_ask_eq_ok.mp hask
  exact ⟨e, hrecord, host.writeAll_eq_ok hwrite⟩

/-- A single entry. -/
theorem appends_record (path : Path) :
    host.Appends (fun entries => do host.appendPathWithName t path; return entries + 1)
      (do return [← host.record t path]) := by
  intro entries n w w' hrun
  obtain ⟨⟨⟩, w₁, hentry, hpure⟩ := run_bind_eq_ok.mp hrun
  obtain ⟨e, hrecord, rfl⟩ := host.appendPathWithName_eq_ok hentry
  cases hpure
  exact ⟨[e], by rw [hrecord]; rfl, by simp, by simp⟩

theorem appends_child {walk : Path → Nat → WriterM Nat}
    {below : Path → Except PvcError (List TarEntry)} (path : Path)
    (h : host.Appends (walk path) (below path)) :
    host.Appends (host.appendChild t walk path) (host.childEntries t below path) := by
  intro entries n w w' hrun
  unfold appendChild at hrun
  unfold childEntries
  split at hrun
  · obtain ⟨⟨⟩, w₁, hentry, hwalk⟩ := run_bind_eq_ok.mp hrun
    obtain ⟨e, hrecord, rfl⟩ := host.appendPathWithName_eq_ok hentry
    obtain ⟨l, hl, hn, rfl⟩ := h _ _ _ _ hwalk
    refine ⟨e :: l, by rw [hrecord, hl]; rfl, ?_, by simp⟩
    rw [hn, List.length_cons]
    omega
  · exact host.appends_record path _ _ _ _ hrun
  · exact host.appends_record path _ _ _ _ hrun
  · cases hrun
    exact ⟨[], rfl, by simp, by simp⟩

theorem appends_children {walk : Path → Nat → WriterM Nat}
    {below : Path → Except PvcError (List TarEntry)} (dir : Path) (names : List Name)
    (h : ∀ path, host.Appends (walk path) (below path)) :
    host.Appends (host.appendChildren t walk dir names) (host.childrenEntries t below dir names) := by
  induction names with
  | nil =>
    intro entries n w w' hrun
    cases hrun
    exact ⟨[], rfl, by simp, by simp⟩
  | cons name names ih =>
    intro entries n w w' hrun
    obtain ⟨k, w₁, hchild, hrest⟩ := run_bind_eq_ok.mp hrun
    obtain ⟨l, hl, rfl, rfl⟩ := host.appends_child _ (h _) _ _ _ _ hchild
    obtain ⟨l', hl', rfl, rfl⟩ := ih _ _ _ _ hrest
    refine ⟨l ++ l', by rw [childrenEntries, hl, hl']; rfl, ?_, by simp⟩
    rw [List.length_append]
    omega

theorem appends_walkAndAppend (frames : Nat) (dir : Path) :
    host.Appends (host.walkAndAppend t frames dir) (host.entriesBelow t frames dir) := by
  induction frames generalizing dir with
  | zero =>
    intro entries n w w' hrun
    cases hrun
  | succ frames ih => exact host.appends_children dir _ ih

/-- A walk and the trailer behind it write the archive of its entries. -/
theorem Appends.archived {x : Nat → WriterM Nat} {es : Except PvcError (List TarEntry)}
    (h : host.Appends x es) {w w' : HashingWriter} {n : Nat}
    (hrun : (do
      let entries ← x 0
      host.writeAll host.tarTrailer
      return entries : WriterM Nat).run w = .ok n w') :
    ∃ l, es = .ok l ∧ n = l.length ∧ w' = w.feed (host.archive l) := by
  obtain ⟨k, w₁, hwalk, htrailer⟩ := run_bind_eq_ok.mp hrun
  obtain ⟨⟨⟩, w₂, hwrite, hpure⟩ := run_bind_eq_ok.mp htrailer
  cases hpure
  obtain ⟨l, hl, rfl, rfl⟩ := h _ _ _ _ hwalk
  cases host.writeAll_eq_ok hwrite
  refine ⟨l, hl, Nat.zero_add _, ?_⟩
  rw [HashingWriter.feed_feed, archive]

/-- What a capture that returns has hashed, counted and written. -/
theorem captureLayer_eq_ok {opts : CaptureOptions} {report : CaptureReport} {file : Bytes}
    (h : host.captureLayer (some t) opts = .ok (report, file)) :
    ∃ es, host.entriesOf t = .ok es ∧
      report = ⟨opts.outPath, "sha256:".toList ++ hexText (host.sha256 (host.archive es)),
        (host.archive es).length, es.length⟩ ∧
      file = host.zstd opts.zstdLevel (host.archive es) := by
  simp only [captureLayer] at h
  split at h
  · cases h
  split at h
  · cases h
  split at h
  · cases h
  · rename_i n w hrun
    cases h
    obtain ⟨es, hes, rfl, rfl⟩ := Appends.archived host (host.appends_walkAndAppend _ _) hrun
    exact ⟨es, hes, by simp [HashingWriter.feed], by simp [HashingWriter.feed]⟩

/-! ### The report -/

/-- The report describes the file. -/
def Describes (report : CaptureReport) (file : Bytes) : Prop :=
  report.digest = "sha256:".toList ++ hexText (host.sha256 file) ∧
    report.bytesCompressed = file.length

/-- The report is about the archive, so it describes the file where the two are the same. -/
theorem describes_iff {opts : CaptureOptions} {report : CaptureReport} {file : Bytes}
    {es : List TarEntry} (h : host.captureLayer (some t) opts = .ok (report, file))
    (hes : host.entriesOf t = .ok es) (hfree : CollisionFree host.sha256 [host.archive es, file]) :
    host.Describes report file ↔ host.archive es = file := by
  obtain ⟨l, hl, rfl, -⟩ := host.captureLayer_eq_ok h
  cases hes.symm.trans hl
  constructor
  · rintro ⟨hdigest, -⟩
    have hhash := hexText_injective (List.append_cancel_left hdigest)
    exact hfree _ (by simp) _ (by simp) hhash
  · rintro rfl
    exact ⟨rfl, rfl⟩

/-- What the formats say: a zstd frame starts with a magic number, a tar header with the name
of its entry or, where that is long, with `././@LongLink`, and an archive ends with two
blocks of zeros. -/
structure Formats : Prop where
  zstd_magic : ∀ level data, zstdMagic <+: host.zstd level data
  third_byte : ∀ e n, e.name = [n] → ValidName n →
    ∃ b, (host.tarEntry e)[2]? = some b ∧ b ≠ 0x2F
  trailer : host.tarTrailer = List.replicate 1024 0

theorem record_name {path : Path} {e : TarEntry} (h : host.record t path = .ok e) :
    e.name = path := by
  unfold record at h
  split at h <;> cases h <;> rfl

theorem head_childEntries {below : Path → Except PvcError (List TarEntry)} {path : Path}
    {e : TarEntry} {es : List TarEntry} (h : host.childEntries t below path = .ok (e :: es)) :
    e.name = path := by
  unfold childEntries at h
  split at h
  · obtain ⟨e', he', h⟩ := except_bind_eq_ok.mp h
    obtain ⟨l, -, h⟩ := except_bind_eq_ok.mp h
    cases h
    exact host.record_name he'
  · obtain ⟨e', he', h⟩ := except_bind_eq_ok.mp h
    cases h
    exact host.record_name he'
  · obtain ⟨e', he', h⟩ := except_bind_eq_ok.mp h
    cases h
    exact host.record_name he'
  · cases h

/-- The first entry is for a child of the directory. -/
theorem head_childrenEntries {below : Path → Except PvcError (List TarEntry)} {dir : Path}
    {names : List Name} {e : TarEntry} {es : List TarEntry}
    (h : host.childrenEntries t below dir names = .ok (e :: es)) :
    ∃ name ∈ names, e.name = dir ++ [name] := by
  induction names with
  | nil => cases h
  | cons name names ih =>
    obtain ⟨l, hl, h⟩ := except_bind_eq_ok.mp h
    obtain ⟨l', hl', h⟩ := except_bind_eq_ok.mp h
    cases l with
    | nil =>
      obtain ⟨name', hmem, hname⟩ := ih (hl'.trans h)
      exact ⟨name', by simp [hmem], hname⟩
    | cons e' l =>
      cases h
      exact ⟨name, by simp, host.head_childEntries hl⟩

theorem mem_sortedChildren {dir : Path} {name : Name} :
    name ∈ sortedChildren t dir ↔ (t.get? (dir ++ [name])).isSome := by
  rw [sortedChildren, List.mem_insertionSort, PathMap.mem_children]

/-- No archive of a directory starts as a compressed one does. -/
theorem archive_not_zstd (hformats : host.Formats) (hnamed : DiskTree.Named t) {es : List TarEntry}
    (hes : host.entriesOf t = .ok es) : ¬ zstdMagic <+: host.archive es := by
  have hbyte : ∀ {b : UInt8} {l : Bytes}, l[2]? = some b → b ≠ 0x2F → ¬ zstdMagic <+: l := by
    rintro b l hb hne ⟨rest, rfl⟩
    exact hne (Option.some.inj hb).symm
  cases es with
  | nil =>
    rw [archive, hformats.trailer, List.flatMap_nil, List.nil_append]
    exact hbyte (b := 0) (by decide) (by decide)
  | cons e es =>
    obtain ⟨name, hmem, hname⟩ := host.head_childrenEntries hes
    have hvalid := hnamed _ (mem_sortedChildren.mp hmem) name (by simp)
    obtain ⟨b, hb, hne⟩ := hformats.third_byte e name hname hvalid
    refine hbyte (b := b) ?_ hne
    rw [archive, List.flatMap_cons, List.append_assoc, List.getElem?_append_left, hb]
    exact (List.getElem?_eq_some_iff.mp hb).1

/-- No report describes its file: it has the hash and the size of the archive, and the file
is the archive compressed. -/
theorem report_never_describes (hformats : host.Formats) {upper : Option DiskTree}
    (hnamed : ∀ t, upper = some t → DiskTree.Named t) {opts : CaptureOptions} {report : CaptureReport}
    {file : Bytes} (h : host.captureLayer upper opts = .ok (report, file))
    (hfree : ∀ t es, upper = some t → host.entriesOf t = .ok es →
      CollisionFree host.sha256 [host.archive es, file]) :
    ¬ host.Describes report file := by
  cases upper with
  | none => cases h
  | some t =>
    obtain ⟨es, hes, -, hfile⟩ := host.captureLayer_eq_ok h
    rw [host.describes_iff h hes (hfree t es rfl hes)]
    intro heq
    apply host.archive_not_zstd hformats (hnamed t rfl) hes
    rw [heq, hfile]
    exact hformats.zstd_magic _ _

/-! ### Captures that return -/

/-- A walk whose entries can be made returns. -/
def Returns (x : Nat → WriterM Nat) (es : Except PvcError (List TarEntry)) : Prop :=
  ∀ entries w l, es = .ok l →
    (x entries).run w = .ok (entries + l.length) (w.feed (l.flatMap host.tarEntry))

theorem appendPathWithName_eq (hflow : host.Flowing) {path : Path} {e : TarEntry}
    (h : host.record t path = .ok e) (w : HashingWriter) :
    (host.appendPathWithName t path).run w = .ok () (w.feed (host.tarEntry e)) := by
  rw [appendPathWithName, EStateM.run_bind, run_ask, h]
  exact host.writeAll_eq hflow _ _

theorem returns_record (hflow : host.Flowing) (path : Path) :
    host.Returns (fun entries => do host.appendPathWithName t path; return entries + 1)
      (do return [← host.record t path]) := by
  intro entries w l hl
  obtain ⟨e, he, hl⟩ := except_bind_eq_ok.mp hl
  cases hl
  rw [EStateM.run_bind, host.appendPathWithName_eq hflow he]
  simp

theorem returns_child (hflow : host.Flowing) {walk : Path → Nat → WriterM Nat}
    {below : Path → Except PvcError (List TarEntry)} (path : Path)
    (h : host.Returns (walk path) (below path)) :
    host.Returns (host.appendChild t walk path) (host.childEntries t below path) := by
  intro entries w l hl
  unfold childEntries at hl
  unfold appendChild
  split at hl
  · obtain ⟨e, he, hl⟩ := except_bind_eq_ok.mp hl
    obtain ⟨l', hl', hl⟩ := except_bind_eq_ok.mp hl
    cases hl
    rw [EStateM.run_bind, host.appendPathWithName_eq hflow he]
    simp only [h _ _ _ hl', HashingWriter.feed_feed, List.flatMap_cons, List.length_cons]
    rw [Nat.add_assoc, Nat.add_comm 1]
  · exact host.returns_record hflow path _ _ _ hl
  · exact host.returns_record hflow path _ _ _ hl
  · cases hl
    simp

theorem returns_children (hflow : host.Flowing) {walk : Path → Nat → WriterM Nat}
    {below : Path → Except PvcError (List TarEntry)} (dir : Path) (names : List Name)
    (h : ∀ path, host.Returns (walk path) (below path)) :
    host.Returns (host.appendChildren t walk dir names) (host.childrenEntries t below dir names) := by
  induction names with
  | nil =>
    intro entries w l hl
    cases hl
    simp [appendChildren]
  | cons name names ih =>
    intro entries w l hl
    obtain ⟨l₁, hl₁, hl⟩ := except_bind_eq_ok.mp hl
    obtain ⟨l₂, hl₂, hl⟩ := except_bind_eq_ok.mp hl
    cases hl
    rw [appendChildren, EStateM.run_bind, host.returns_child hflow _ (h _) _ _ _ hl₁]
    simp only [ih _ _ _ hl₂, HashingWriter.feed_feed, List.flatMap_append, List.length_append,
      Nat.add_assoc]

theorem returns_walkAndAppend (hflow : host.Flowing) (frames : Nat) (dir : Path) :
    host.Returns (host.walkAndAppend t frames dir) (host.entriesBelow t frames dir) := by
  induction frames generalizing dir with
  | zero =>
    intro entries w l hl
    cases hl
  | succ frames ih => exact host.returns_children hflow dir _ ih

/-- A directory whose archive can be made is captured. -/
theorem captureLayer_eq (hflow : host.Flowing) (hcreates : host.creates = true)
    {opts : CaptureOptions} (hencodes : host.encodes opts.zstdLevel = true) {es : List TarEntry}
    (hes : host.entriesOf t = .ok es) :
    host.captureLayer (some t) opts = .ok
      (⟨opts.outPath, "sha256:".toList ++ hexText (host.sha256 (host.archive es)),
        (host.archive es).length, es.length⟩, host.zstd opts.zstdLevel (host.archive es)) := by
  have hwalk := host.returns_walkAndAppend hflow _ _ 0 ⟨⟨opts.zstdLevel, []⟩, [], 0⟩ es hes
  simp only [captureLayer, hcreates, hencodes, Bool.not_true, Bool.false_eq_true, if_false,
    EStateM.run_bind, hwalk, host.writeAll_eq hflow]
  simp [HashingWriter.feed, archive]

end Host

/-! ### A host, as far as short names go -/

/-- A number in octal, ended by a zero byte. -/
def octalField (width n : Nat) : Bytes :=
  ((Nat.toDigits 8 n).leftpad (width - 1) '0').map (UInt8.ofNat ·.toNat) ++ [0]

def asciiByte (c : Char) : UInt8 := if c.toNat < 128 then UInt8.ofNat c.toNat else 0x3F

def asciiText (path : Path) : Bytes := (List.intercalate ['/'] path).map asciiByte

/-- The header of an entry, with its checksum. -/
def ustarHeader (path : Path) (mode size : Nat) (flag : UInt8) : Bytes :=
  let header (checksum : Bytes) : Bytes :=
    ((asciiText path).take 100).rightpad 100 0 ++
      (octalField 8 mode ++ octalField 8 0 ++ octalField 8 0 ++ octalField 12 size ++
        -- the fixed time of the deterministic mode
        octalField 12 1153704088 ++ checksum ++ [flag] ++ List.replicate 100 0 ++
        "ustar  ".toList.map asciiByte ++ List.replicate 248 0)
  header (octalField 8 ((header (List.replicate 8 0x20)).map UInt8.toNat).sum)

def ustarEntry (e : TarEntry) : Bytes :=
  match e.body with
  | .file content =>
    ustarHeader e.name 0o644 content.length 0x30 ++ content ++
      List.replicate ((512 - content.length % 512) % 512) 0
  | .directory => ustarHeader e.name 0o755 0 0x35
  | .symlink _ => ustarHeader e.name 0o644 0 0x32
  | .special => ustarHeader e.name 0o644 0 0x36

theorem asciiByte_ne_slash {c : Char} (h : c ≠ '/') : asciiByte c ≠ 0x2F := by
  unfold asciiByte
  split
  · intro heq
    have hnat := congrArg UInt8.toNat heq
    rw [UInt8.toNat_ofNat', Nat.mod_eq_of_lt (by omega)] at hnat
    exact h (Char.toNat_inj.mp hnat)
  · decide

theorem third_byte_ustarHeader {n : Name} (hvalid : ValidName n) (mode size : Nat) (flag : UInt8) :
    ∃ b, (ustarHeader [n] mode size flag)[2]? = some b ∧ b ≠ 0x2F := by
  have hlength : 2 < (((asciiText [n]).take 100).rightpad 100 0).length := by simp
  refine ⟨(((asciiText [n]).take 100).rightpad 100 0)[2], ?_, ?_⟩
  · rw [ustarHeader, List.getElem?_append_left hlength, List.getElem?_eq_getElem hlength]
  · rcases List.mem_append.mp (List.getElem_mem hlength) with hmem | hmem
    · obtain ⟨c, hc, heq⟩ := List.mem_map.mp (List.mem_of_mem_take hmem)
      rw [← heq]
      apply asciiByte_ne_slash
      rintro rfl
      exact hvalid.2.1 (by simpa [List.intercalate] using hc)
    · rw [List.eq_of_mem_replicate hmem]
      decide

theorem third_byte_ustarEntry (e : TarEntry) (n : Name) (hname : e.name = [n])
    (hvalid : ValidName n) : ∃ b, (ustarEntry e)[2]? = some b ∧ b ≠ 0x2F := by
  unfold ustarEntry
  rw [hname]
  split
  · obtain ⟨b, hb, hne⟩ := third_byte_ustarHeader hvalid 0o644 _ 0x30
    refine ⟨b, ?_, hne⟩
    rw [List.append_assoc, List.getElem?_append_left, hb]
    exact (List.getElem?_eq_some_iff.mp hb).1
  all_goals exact third_byte_ustarHeader hvalid _ _ _

/-- The archive of an empty directory, compressed at level 3. -/
def emptyFrame : Bytes := [40, 181, 47, 253, 0, 88, 77, 0, 0, 16, 0, 0, 1, 0, 251, 43, 128, 5]

def emptyArchiveHash : Hash256 :=
  ⟨[95, 112, 191, 24, 160, 134, 0, 112, 22, 233, 72, 176, 74, 237, 59, 130, 16, 58, 54, 190,
    164, 23, 85, 182, 205, 223, 175, 16, 172, 227, 198, 239], rfl⟩

def emptyFrameHash : Hash256 :=
  ⟨[121, 253, 25, 125, 185, 105, 83, 250, 6, 76, 236, 239, 234, 6, 230, 7, 211, 16, 157, 186,
    182, 132, 127, 119, 57, 123, 161, 253, 162, 82, 221, 113], rfl⟩

/-- What an empty directory needs. -/
def emptyHost : Host where
  sha256 data :=
    if data = List.replicate 1024 0 then emptyArchiveHash
    else if data = emptyFrame then emptyFrameHash
    else zeroHash
  tarEntry := ustarEntry
  tarTrailer := List.replicate 1024 0
  zstd level data :=
    if level = 3 ∧ data = List.replicate 1024 0 then emptyFrame else zstdMagic ++ data
  leads _ := none
  creates := true
  encodes _ := true
  takes _ buf := some (Fin.last buf.length)

namespace Host

theorem formats_emptyHost : emptyHost.Formats where
  zstd_magic level data := by
    change zstdMagic <+: if level = 3 ∧ data = List.replicate 1024 0 then emptyFrame else _
    split
    · decide
    · exact List.prefix_append _ _
  third_byte := third_byte_ustarEntry
  trailer := rfl

theorem flowing_emptyHost : emptyHost.Flowing := flowing_of_takesAll _ fun _ _ => rfl

def emptyReport : CaptureReport :=
  ⟨"out".toList, "sha256:".toList ++ hexText emptyArchiveHash, 1024, 0⟩

theorem capture_emptyHost :
    emptyHost.captureLayer (some .empty) ⟨"out".toList, 3⟩ =
      .ok (emptyReport, emptyFrame) := by
  have hes : emptyHost.entriesOf .empty = .ok [] := rfl
  rw [captureLayer_eq emptyHost flowing_emptyHost rfl rfl hes]
  decide +kernel

/-- 1024 bytes of archive make a file of 18 bytes. -/
theorem empty_capture_misreported :
    emptyHost.captureLayer (some .empty) ⟨"out".toList, 3⟩ =
        .ok (emptyReport, emptyFrame) ∧
      emptyReport.digest ≠ "sha256:".toList ++ hexText (emptyHost.sha256 emptyFrame) ∧
      emptyReport.bytesCompressed ≠ emptyFrame.length :=
  ⟨capture_emptyHost, by decide +kernel, by decide⟩

theorem empty_report_never_describes : ¬ emptyHost.Describes emptyReport emptyFrame := by
  apply report_never_describes emptyHost formats_emptyHost _ capture_emptyHost
  · rintro _ es ⟨⟩ hes
    obtain rfl := Except.ok.inj hes
    have hnodup : ([emptyHost.archive [], emptyFrame].map emptyHost.sha256).Nodup := by
      decide +kernel
    exact CollisionFree.of_nodup hnodup fun _ h => h
  · rintro _ ⟨⟩ p hp n hn
    rw [DiskTree.get?_empty] at hp
    split at hp
    · subst p
      cases hn
    · cases hp

end Host

end Rspacefs
