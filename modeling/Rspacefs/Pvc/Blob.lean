import Rspacefs.Pvc.Capture

/-!
# Capturing a directory and applying the blob

`apply_blob` of `rspacefs-pvc/src/blob.rs` against `capture_layer`. What `tar::Archive` reads
of an archive and what `unpack_in` does with an entry are parameters, as the zstd decoder is.
An archive never records a link: `append_path_with_name` follows it, and what comes back is
the file or the directory that the link led to.

## Main definitions

* `Unpacker` — the crates on the reading side
* `Unpacker.applyBlob` — the source's function
* `RoundTrips` — a capture returns, and applying its blob gives the directory back

## Main results

* `Host.entries_unpack` — the entries of a directory without links, unpacked, are the directory
* `applyBlob_links` — no blob of a capture brings a link
* `roundTrips_iff` — which directories come back
-/

namespace Rspacefs

open Lib

/-- First 2 bytes of a gzip stream. -/
def gzipMagic : Bytes := [0x1F, 0x8B]

/-- What unpacking calls. -/
structure Unpacker where
  /-- The decoder, on a whole file; `none` where it fails. -/
  unzstd : Bytes → Option Bytes
  /-- The items of `Archive::entries`; `none` where one cannot be read. -/
  untar : Bytes → List (Option TarEntry)
  /-- `Entry::unpack_in`: whether the entry is inside the directory. -/
  unpackIn : TarEntry → DiskTree → Except PvcError (Bool × DiskTree)
  /-- Does `create_dir_all` of the directory succeed? -/
  createsDir : Bool

structure ApplyReport where
  entries : Nat
  bytesWritten : Nat
  deriving DecidableEq, Repr

/-- The size in the header of an entry. -/
def TarEntry.size (e : TarEntry) : Nat :=
  match e.body with
  | .file content => content.length
  | _ => 0

namespace Unpacker

variable (u : Unpacker)

/-- The loop over the entries of an archive. -/
def applyEntries : List (Option TarEntry) → DiskTree → Nat → Nat →
    Except PvcError (ApplyReport × DiskTree)
  | [], dest, entries, bytesWritten => .ok (⟨entries, bytesWritten⟩, dest)
  | none :: _, _, _, _ => .error .io
  | some e :: rest, dest, entries, bytesWritten => do
    let (inside, dest) ← u.unpackIn e dest
    if !inside then
      .error (.invalidArgument ("blob entry " ++
        (String.ofList (List.intercalate ['/'] e.name)).quote ++ " escapes the destination directory"))
    else applyEntries rest dest (entries + 1) (bytesWritten + e.size)

/-- Extract `blob` (plain tar or tar+zstd) into `dest`, creating `dest` if needed. -/
def applyBlob (blobPath : List Char) (blob : Option Bytes) (dest : Option DiskTree) :
    Except PvcError (ApplyReport × DiskTree) := do
  match blob with
  | none => .error .io
  | some blob =>
    let magic := blob.take 4
    let reader ←
      if magic = zstdMagic then
        match u.unzstd blob with
        | none => .error .io
        | some data => .ok data
      else if 2 ≤ magic.length ∧ magic.take 2 = gzipMagic then
        .error (.invalidArgument (String.ofList blobPath ++
          " is gzip-compressed; PVC blobs are tar or tar+zstd (recompress with " ++
          "`zcat blob | zstd -o blob.tar.zst`)"))
      else .ok blob
    if !u.createsDir then .error .io
    else u.applyEntries (u.untar reader) (dest.getD .empty) 0 0

/-! ### Unpacking entry by entry -/

/-- What a tar entry is restored as. A fifo or a device is none of these. -/
def node (body : TarBody) : Option DiskNode :=
  match body with
  | .file content => some (.file (some content))
  | .directory => some .dir
  | .symlink target => some (.link target)
  | .special => none

/-- Entries are restored as recorded. -/
structure Restores : Prop where
  /-- A new name in a directory that is there. -/
  unpack_new : ∀ e d n, (∀ name ∈ e.name, ValidName name) → e.name ≠ [] →
    d.get? e.name.dropLast = some .dir → d.get? e.name = none → node e.body = some n →
      ∃ d', u.unpackIn e d = .ok (true, d') ∧ ∀ p, d'.get? p = if p = e.name then some n else d.get? p
  /-- Only the entry of a link makes a link. -/
  link_of_unpack : ∀ e d b d', u.unpackIn e d = .ok (b, d') → (∀ x, e.body ≠ .symlink x) →
    ∀ p x, d'.get? p = some (.link x) → d.get? p = some (.link x)

/-- Unpacking these entries takes one directory to another, whatever comes after them. -/
def Lays (es : List TarEntry) (d d' : DiskTree) : Prop :=
  ∀ rest n b, u.applyEntries (es.map some ++ rest) d n b =
    u.applyEntries rest d' (n + es.length) (b + (es.map TarEntry.size).sum)

theorem lays_nil (d : DiskTree) : u.Lays [] d d := fun _ _ _ => rfl

variable {u} {es es' : List TarEntry} {e : TarEntry} {d d' d'' : DiskTree}

theorem Lays.append (h : u.Lays es d d') (h' : u.Lays es' d' d'') : u.Lays (es ++ es') d d'' := by
  intro rest n b
  rw [List.map_append, List.append_assoc, h, h']
  simp [Nat.add_assoc]

theorem lays_single (h : u.unpackIn e d = .ok (true, d')) : u.Lays [e] d d' := by
  intro rest n b
  simp only [List.map_cons, List.map_nil, List.cons_append, List.nil_append, applyEntries, h]
  rfl

/-- What was there before the links of an archive without links. -/
theorem applyEntries_links (hu : u.Restores) {l : List (Option TarEntry)}
    (hl : ∀ e x, some e ∈ l → e.body ≠ .symlink x) {n b : Nat} {report : ApplyReport}
    (h : u.applyEntries l d n b = .ok (report, d')) {p : Path} {x : Target}
    (hp : d'.get? p = some (.link x)) : d.get? p = some (.link x) := by
  induction l generalizing d n b with
  | nil =>
    cases h
    exact hp
  | cons e l ih =>
    cases e with
    | none => cases h
    | some e =>
      obtain ⟨⟨inside, d₁⟩, hunpack, h⟩ := except_bind_eq_ok.mp h
      simp only at h
      split at h
      · cases h
      · apply hu.link_of_unpack e d inside d₁ hunpack fun x => hl e x (by simp)
        exact ih (fun e x he => hl e x (by simp [he])) h

/-- Unpacking these entries makes the directory `d` one that is as `t` at the paths `S`. -/
structure Rebuilds (u : Unpacker) (t : DiskTree) (S : Path → Prop) (es : List TarEntry)
    (d d' : DiskTree) : Prop where
  lays : u.Lays es d d'
  on : ∀ p, S p → d'.get? p = t.get? p
  off : ∀ p, ¬ S p → d'.get? p = d.get? p

namespace Rebuilds

variable {t : DiskTree} {S S' : Path → Prop}

theorem append (h : Rebuilds u t S es d d') (h' : Rebuilds u t S' es' d' d'') :
    Rebuilds u t (fun p => S p ∨ S' p) (es ++ es') d d'' where
  lays := h.lays.append h'.lays
  on p hp := by
    by_cases hp' : S' p
    · exact h'.on p hp'
    · rw [h'.off p hp', h.on p (hp.resolve_right hp')]
  off p hp := by
    rw [not_or] at hp
    rw [h'.off p hp.2, h.off p hp.1]

/-- More paths, where nothing has to be done. -/
theorem mono (h : Rebuilds u t S es d d') (hS : ∀ p, S p → S' p)
    (hdone : ∀ p, S' p → ¬ S p → d.get? p = t.get? p) : Rebuilds u t S' es d d' where
  lays := h.lays
  on p hp := by
    by_cases hp' : S p
    · exact h.on p hp'
    · rw [h.off p hp', hdone p hp hp']
  off p hp := h.off p fun hp' => hp (hS p hp')

end Rebuilds

end Unpacker

/-! ### The directory comes back -/

/-- A directory that can be archived as it is. -/
structure DiskTree.Plain (t : DiskTree) : Prop where
  named : DiskTree.Named t
  readable : ∀ p, t.get? p ≠ some (.file none)
  no_link : ∀ p x, t.get? p ≠ some (.link x)
  no_special : ∀ p, t.get? p ≠ some .special

namespace Host

open Unpacker

variable (host : Host) {u : Unpacker} {t d : DiskTree} {dir path p : Path} {n : DiskNode}

theorem record_plain (ht : DiskTree.Plain t) (h : t.get? path = some n) :
    ∃ e, host.record t path = .ok e ∧ e.name = path ∧ node e.body = some n := by
  unfold record
  rw [h]
  cases n with
  | file content =>
    cases content with
    | none => exact absurd h (ht.readable path)
    | some content => exact ⟨_, rfl, rfl, rfl⟩
  | dir => exact ⟨_, rfl, rfl, rfl⟩
  | link x => exact absurd h (ht.no_link path x)
  | special => exact absurd h (ht.no_special path)

/-- The entry of a path, unpacked. -/
theorem record_unpack (hu : u.Restores) (ht : DiskTree.Plain t) (hne : path ≠ [])
    (h : t.get? path = some n) (hparent : d.get? path.dropLast = some .dir)
    (hclear : d.get? path = none) :
    ∃ e d', host.record t path = .ok e ∧ Rebuilds u t (· = path) [e] d d' := by
  obtain ⟨e, he, rfl, hnode⟩ := host.record_plain ht h
  have hnames := ht.named _ (by rw [h]; rfl)
  obtain ⟨d', hunpack, hd'⟩ := hu.unpack_new e d n hnames hne hparent hclear hnode
  refine ⟨e, d', he, lays_single hunpack, ?_, ?_⟩
  · rintro _ rfl
    rw [hd', if_pos rfl, h]
  · intro p hp
    rw [hd', if_neg hp]

/-- The entries of what is below a directory, unpacked there. -/
def BelowUnpacks (u : Unpacker) (t : DiskTree) (below : Path → Except PvcError (List TarEntry))
    (dir : Path) : Prop :=
  ∀ d : DiskTree, d.get? dir = some .dir → (∀ p, dir <+: p → p ≠ dir → d.get? p = none) →
    ∃ es d', below dir = .ok es ∧ Rebuilds u t (fun p => dir <+: p ∧ p ≠ dir) es d d'

theorem child_unpack (hu : u.Restores) (ht : DiskTree.Plain t)
    {below : Path → Except PvcError (List TarEntry)} (hne : path ≠ []) (hstored : t.get? path = some n)
    (hparent : d.get? path.dropLast = some .dir) (hclear : ∀ p, path <+: p → d.get? p = none)
    (hbelow : n = .dir → BelowUnpacks u t below path) :
    ∃ es d', host.childEntries t below path = .ok es ∧ Rebuilds u t (path <+: ·) es d d' := by
  obtain ⟨e, d₁, he, hfirst⟩ := host.record_unpack hu ht hne hstored hparent
    (hclear path (List.prefix_refl _))
  unfold childEntries
  rw [hstored]
  by_cases hdir : n = .dir
  · subst n
    have hd₁ : d₁.get? path = some .dir := (hfirst.on path rfl).trans hstored
    obtain ⟨es, d', hes, hrest⟩ := hbelow rfl d₁ hd₁ fun p hp hne =>
      (hfirst.off p hne).trans (hclear p hp)
    refine ⟨e :: es, d', by rw [he, hes]; rfl, (hfirst.append hrest).mono ?_ ?_⟩
    · rintro p (rfl | hp)
      · exact List.prefix_refl _
      · exact hp.1
    · intro p hp hnot
      by_cases h : p = path
      · exact absurd (Or.inl h) hnot
      · exact absurd (Or.inr ⟨hp, h⟩) hnot
  · -- nothing is below a file
    have hleaf : Rebuilds u t (path <+: ·) [e] d d₁ := by
      apply hfirst.mono
      · rintro p rfl
        exact List.prefix_refl _
      · intro p hp hpne
        rw [hclear p hp]
        by_contra hsome
        obtain ⟨b, hb⟩ := Option.ne_none_iff_exists'.mp fun h => hsome h.symm
        obtain ⟨c, hc, hinner⟩ := PathMap.exists_inner_of_isPrefix hp (Ne.symm hpne) hb
        exact hdir (Option.some.inj (hstored.symm.trans (hc.trans (congrArg some hinner))))
    cases n with
    | file content => exact ⟨[e], d₁, by rw [he]; rfl, hleaf⟩
    | dir => exact absurd rfl hdir
    | link x => exact absurd hstored (ht.no_link path x)
    | special => exact absurd hstored (ht.no_special path)

theorem children_unpack (names : List Name) (hu : u.Restores) (ht : DiskTree.Plain t)
    {below : Path → Except PvcError (List TarEntry)} (hnodup : names.Nodup)
    (hstored : ∀ name ∈ names, (t.get? (dir ++ [name])).isSome)
    (hdir : d.get? dir = some .dir)
    (hclear : ∀ name ∈ names, ∀ p, dir ++ [name] <+: p → d.get? p = none)
    (hbelow : ∀ name, t.get? (dir ++ [name]) = some .dir → BelowUnpacks u t below (dir ++ [name])) :
    ∃ es d', host.childrenEntries t below dir names = .ok es ∧
      Rebuilds u t (fun p => ∃ name ∈ names, dir ++ [name] <+: p) es d d' := by
  induction names generalizing d with
  | nil => exact ⟨[], d, rfl, lays_nil u d, by simp, fun _ _ => rfl⟩
  | cons name names ih =>
    obtain ⟨hnot, hnodup⟩ := List.nodup_cons.mp hnodup
    obtain ⟨n, hn⟩ := Option.isSome_iff_exists.mp (hstored name (by simp))
    obtain ⟨es, d₁, hes, hfirst⟩ := host.child_unpack hu ht (by simp) hn (by simpa using hdir)
      (hclear name (by simp)) fun h => hbelow name (h ▸ hn)
    have hd₁ : d₁.get? dir = some .dir := by
      rw [hfirst.off dir, hdir]
      intro h
      have := h.length_le
      simp only [List.length_append, List.length_singleton] at this
      omega
    -- what the first child has laid down is not below its siblings
    have hclear₁ : ∀ name' ∈ names, ∀ p, dir ++ [name'] <+: p → d₁.get? p = none := by
      intro name' hmem p hp
      rw [hfirst.off p, hclear name' (by simp [hmem]) p hp]
      intro hp'
      have heq := List.prefix_of_prefix_length_le hp' hp (by simp)
      have := heq.eq_of_length (by simp)
      simp only [List.append_cancel_left_eq, List.cons.injEq, and_true] at this
      exact hnot (this ▸ hmem)
    obtain ⟨es', d', hes', hrest⟩ := ih hnodup (fun name' h => hstored name' (by simp [h])) hd₁ hclear₁
    refine ⟨es ++ es', d', by rw [childrenEntries, hes, hes']; rfl, (hfirst.append hrest).mono ?_ ?_⟩
    · rintro p (hp | ⟨name', hmem, hp⟩)
      · exact ⟨name, by simp, hp⟩
      · exact ⟨name', by simp [hmem], hp⟩
    · rintro p ⟨name', hmem, hp⟩ hno
      exfalso
      rcases List.mem_cons.mp hmem with rfl | hmem
      · exact hno (Or.inl hp)
      · exact hno (Or.inr ⟨name', hmem, hp⟩)

/-- Frames for every directory below this one. -/
def Fits (t : DiskTree) (frames : Nat) (dir : Path) : Prop :=
  ∀ p, dir <+: p → (t.get? p).isSome → p.length < dir.length + frames

theorem length_le_depth (h : (t.get? p).isSome) : p.length ≤ depth t := by
  have hle : ∀ l : List Nat, ∀ k ∈ l, k ≤ l.foldr max 0 := by
    intro l
    induction l with
    | nil => simp
    | cons a l ih =>
      intro k hk
      rcases List.mem_cons.mp hk with rfl | hk
      · exact le_max_left _ _
      · exact (ih k hk).trans (le_max_right _ _)
  rw [PathMap.get?, AList.lookup_isSome, AList.mem_keys] at h
  exact hle _ _ (List.mem_map_of_mem h)

theorem fits_root (t : DiskTree) : Fits t (depth t + 1) [] := by
  intro p _ hp
  have := length_le_depth hp
  simp only [List.length_nil]
  omega

/-- The step below a directory on the way to a path. -/
theorem exists_child (hp : dir <+: p) (hne : p ≠ dir) (hstored : (t.get? p).isSome) :
    ∃ name, dir ++ [name] <+: p ∧ name ∈ sortedChildren t dir := by
  obtain ⟨rest, rfl⟩ := hp
  cases rest with
  | nil => exact absurd (List.append_nil dir) hne
  | cons name rest =>
    have hprefix : dir ++ [name] <+: dir ++ name :: rest := ⟨rest, by simp⟩
    exact ⟨name, hprefix, mem_sortedChildren.mpr (PathMap.isSome_of_isPrefix hprefix hstored)⟩

theorem entriesBelow_unpack (hu : u.Restores) (ht : DiskTree.Plain t) {frames : Nat}
    (hfits : Fits t frames dir) (hdir : t.get? dir = some .dir) :
    BelowUnpacks u t (host.entriesBelow t frames) dir := by
  induction frames generalizing dir with
  | zero =>
    have := hfits dir (List.prefix_refl _) (by rw [hdir]; rfl)
    omega
  | succ frames ih =>
    intro d hd hclear
    have hbelow : ∀ name ∈ sortedChildren t dir, ∀ p, dir ++ [name] <+: p → dir <+: p ∧ p ≠ dir := by
      rintro name - p ⟨rest, rfl⟩
      exact ⟨⟨name :: rest, by simp⟩, by simp⟩
    obtain ⟨es, d', hes, hrest⟩ := host.children_unpack (sortedChildren t dir) hu ht
      (((List.perm_insertionSort _ _).nodup_iff).mpr (t.nodup_children dir))
      (fun name h => mem_sortedChildren.mp h) hd
      (fun name h p hp => hclear p (hbelow name h p hp).1 (hbelow name h p hp).2)
      (fun name hname => by
        refine ih ?_ hname
        intro p hp hstored
        have := hfits p ((List.prefix_append _ _).trans hp) hstored
        simp only [List.length_append, List.length_singleton]
        omega)
    refine ⟨es, d', hes, hrest.mono ?_ ?_⟩
    · rintro p ⟨name, hmem, hp⟩
      exact hbelow name hmem p hp
    · rintro p ⟨hp, hne⟩ hno
      rw [hclear p hp hne]
      by_contra hsome
      have hstored := Option.isSome_iff_ne_none.mpr fun h => hsome h.symm
      obtain ⟨name, hname, hmem⟩ := exists_child hp hne hstored
      exact hno ⟨name, hmem, hname⟩

/-! ### What an archive holds -/

theorem childEntries_of_children {below : Path → Except PvcError (List TarEntry)}
    {names : List Name} {es : List TarEntry} (h : host.childrenEntries t below dir names = .ok es)
    {name : Name} (hmem : name ∈ names) :
    ∃ l, host.childEntries t below (dir ++ [name]) = .ok l := by
  induction names generalizing es with
  | nil => cases hmem
  | cons name' names ih =>
    obtain ⟨l, hl, h⟩ := except_bind_eq_ok.mp h
    obtain ⟨l', hl', -⟩ := except_bind_eq_ok.mp h
    rcases List.mem_cons.mp hmem with rfl | hmem
    · exact ⟨l, hl⟩
    · exact ih hl' hmem

theorem record_of_childEntries {below : Path → Except PvcError (List TarEntry)}
    {es : List TarEntry} (h : host.childEntries t below path = .ok es)
    (hstored : t.get? path = some n) (hspecial : n ≠ .special) :
    ∃ e, host.record t path = .ok e := by
  unfold childEntries at h
  rw [hstored] at h
  cases n with
  | file content =>
    obtain ⟨e, he, -⟩ := except_bind_eq_ok.mp h
    exact ⟨e, he⟩
  | dir =>
    obtain ⟨e, he, -⟩ := except_bind_eq_ok.mp h
    exact ⟨e, he⟩
  | link x =>
    obtain ⟨e, he, -⟩ := except_bind_eq_ok.mp h
    exact ⟨e, he⟩
  | special => exact absurd rfl hspecial

/-- Every path of the directory has been recorded. -/
theorem record_of_entriesBelow {frames : Nat} {es : List TarEntry}
    (h : host.entriesBelow t frames dir = .ok es) (hp : dir <+: p) (hne : p ≠ dir)
    (hstored : t.get? p = some n) (hspecial : n ≠ .special) : ∃ e, host.record t p = .ok e := by
  induction frames generalizing dir es with
  | zero => cases h
  | succ frames ih =>
    obtain ⟨name, hname, hmem⟩ := exists_child hp hne (by rw [hstored]; rfl)
    obtain ⟨l, hl⟩ := host.childEntries_of_children h hmem
    by_cases heq : dir ++ [name] = p
    · subst p
      exact host.record_of_childEntries hl hstored hspecial
    · -- the walk goes on below the child, a directory
      obtain ⟨c, hc, rfl⟩ := PathMap.exists_inner_of_isPrefix hname heq hstored
      unfold childEntries at hl
      rw [hc] at hl
      obtain ⟨e, -, hl⟩ := except_bind_eq_ok.mp hl
      obtain ⟨l', hl', -⟩ := except_bind_eq_ok.mp hl
      exact ih hl' hname (Ne.symm heq)

/-- A link is never recorded as one. -/
theorem record_not_symlink {e : TarEntry} (h : host.record t path = .ok e) (x : Target) :
    e.body ≠ .symlink x := by
  unfold record at h
  split at h <;> cases h <;> nofun

theorem childEntries_not_symlink {below : Path → Except PvcError (List TarEntry)}
    (hbelow : ∀ es, below path = .ok es → ∀ e ∈ es, ∀ x, e.body ≠ .symlink x)
    {es : List TarEntry} (h : host.childEntries t below path = .ok es) :
    ∀ e ∈ es, ∀ x, e.body ≠ .symlink x := by
  unfold childEntries at h
  split at h
  · obtain ⟨e, he, h⟩ := except_bind_eq_ok.mp h
    obtain ⟨l, hl, h⟩ := except_bind_eq_ok.mp h
    cases h
    intro e' hmem
    rcases List.mem_cons.mp hmem with rfl | hmem
    · exact host.record_not_symlink he
    · exact hbelow l hl e' hmem
  · obtain ⟨e, he, h⟩ := except_bind_eq_ok.mp h
    cases h
    simpa using host.record_not_symlink he
  · obtain ⟨e, he, h⟩ := except_bind_eq_ok.mp h
    cases h
    simpa using host.record_not_symlink he
  · cases h
    nofun

theorem entriesBelow_not_symlink {frames : Nat} {es : List TarEntry}
    (h : host.entriesBelow t frames dir = .ok es) : ∀ e ∈ es, ∀ x, e.body ≠ .symlink x := by
  induction frames generalizing dir es with
  | zero => cases h
  | succ frames ih =>
    unfold entriesBelow at h
    generalize sortedChildren t dir = names at h
    induction names generalizing es with
    | nil =>
      cases h
      nofun
    | cons name names ihnames =>
      obtain ⟨l, hl, h⟩ := except_bind_eq_ok.mp h
      obtain ⟨l', hl', h⟩ := except_bind_eq_ok.mp h
      cases h
      intro e hmem
      rcases List.mem_append.mp hmem with hmem | hmem
      · exact host.childEntries_not_symlink (fun es hes => ih hes) hl e hmem
      · exact ihnames hl' e hmem

/-! ### The round trip -/

/-- The formats, on the archive of one directory: decoding undoes encoding, and what is read
of the archive is what was written. -/
structure Decodes (u : Unpacker) (t : DiskTree) (level : Int) : Prop where
  zstd_magic : ∀ es, host.entriesOf t = .ok es →
    zstdMagic <+: host.zstd level (host.archive es)
  unzstd : ∀ es, host.entriesOf t = .ok es →
    u.unzstd (host.zstd level (host.archive es)) = some (host.archive es)
  untar : ∀ es, host.entriesOf t = .ok es → u.untar (host.archive es) = es.map some

theorem applyBlob_archive {level : Int} (hcodec : host.Decodes u t level)
    (hcreates : u.createsDir = true) {es : List TarEntry} (hes : host.entriesOf t = .ok es)
    (blobPath : List Char) (d : DiskTree) :
    u.applyBlob blobPath (some (host.zstd level (host.archive es))) (some d) =
      u.applyEntries (es.map some) d 0 0 := by
  have hmagic : (host.zstd level (host.archive es)).take 4 = zstdMagic := by
    obtain ⟨rest, hrest⟩ := hcodec.zstd_magic es hes
    rw [← hrest]
    rfl
  simp only [applyBlob, hmagic, if_true, hcodec.unzstd es hes, hcreates, Bool.not_true,
    Bool.false_eq_true, if_false, hcodec.untar es hes, Option.getD_some, ok_bind]

/-- Capture then apply reproduces the upper, and a directory that can be read is captured. -/
structure RoundTrips (u : Unpacker) (t : DiskTree) (opts : CaptureOptions) : Prop where
  reproduces : ∀ report file, host.captureLayer (some t) opts = .ok (report, file) →
    ∃ applied d, u.applyBlob opts.outPath (some file) (some .empty) =
        .ok (applied, d) ∧
      applied.entries = report.entries ∧ ∀ p, d.get? p = t.get? p
  captures : (∀ p, t.get? p ≠ some (.file none)) →
    ∃ report file, host.captureLayer (some t) opts = .ok (report, file)

/-- A directory comes back exactly when it has no links. One that cannot be read is not
captured. -/
theorem roundTrips_iff (hflow : host.Flowing) (hcreates : host.creates = true)
    (hu : u.Restores) (hdest : u.createsDir = true) {opts : CaptureOptions}
    (hencodes : host.encodes opts.zstdLevel = true) (hcodec : host.Decodes u t opts.zstdLevel)
    (hnamed : DiskTree.Named t) (hspecial : ∀ p, t.get? p ≠ some .special) :
    host.RoundTrips u t opts ↔
      (∀ p x, t.get? p ≠ some (.link x)) ∨ ∃ p, t.get? p = some (.file none) := by
  have hroot := DiskTree.get?_root t
  constructor
  · intro hround
    by_contra hno
    rw [not_or, not_exists] at hno
    obtain ⟨hlink, hread⟩ := hno
    push Not at hlink
    obtain ⟨p, x, hp⟩ := hlink
    obtain ⟨report, file, hcapture⟩ := hround.captures hread
    obtain ⟨applied, d, happly, -, hsame⟩ := hround.reproduces report file hcapture
    obtain ⟨es, hes, -, rfl⟩ := host.captureLayer_eq_ok hcapture
    rw [host.applyBlob_archive hcodec hdest hes] at happly
    -- nothing in the archive makes a link
    have hd := applyEntries_links hu (l := es.map some) (fun e x he =>
      host.entriesBelow_not_symlink hes e (by simpa using he) x) happly ((hsame p).trans hp)
    rw [DiskTree.get?_empty] at hd
    split at hd <;> cases hd
  · intro h
    by_cases hread : ∃ p, t.get? p = some (.file none)
    · obtain ⟨p, hp⟩ := hread
      have hne : p ≠ [] := by
        rintro rfl
        cases hroot.symm.trans hp
      refine ⟨fun report file hcapture => ?_, fun hread => absurd hp (hread p)⟩
      exfalso
      obtain ⟨es, hes, -, -⟩ := host.captureLayer_eq_ok hcapture
      obtain ⟨e, he⟩ := host.record_of_entriesBelow hes (List.nil_prefix) hne hp nofun
      unfold record at he
      rw [hp] at he
      cases he
    · have ht : DiskTree.Plain t :=
        ⟨hnamed, fun p hp => hread ⟨p, hp⟩, h.resolve_right hread, hspecial⟩
      obtain ⟨es, d, hes, hd⟩ := host.entriesBelow_unpack hu ht (fits_root t) hroot
        .empty (by simp) fun p _ hne => by rw [DiskTree.get?_empty, if_neg hne]
      have hcapture := host.captureLayer_eq hflow hcreates hencodes hes
      refine ⟨fun report file h => ?_, fun _ => ⟨_, _, hcapture⟩⟩
      cases hcapture.symm.trans h
      refine ⟨⟨es.length, (es.map TarEntry.size).sum⟩, d, ?_, rfl, fun p => ?_⟩
      · rw [host.applyBlob_archive hcodec hdest hes]
        simpa [applyEntries] using hd.lays [] 0 0
      · by_cases hp : p = []
        · rw [hp, hd.off [] (by simp), hroot, DiskTree.get?_empty, if_pos rfl]
        · exact hd.on p ⟨List.nil_prefix, hp⟩

end Host

/-! ### A file and a link -/

/-- Unpacking new names in directories that are there. -/
def unpackNew (e : TarEntry) (d : DiskTree) : Except PvcError (Bool × DiskTree) :=
  match Unpacker.node e.body with
  | none => .error .io
  | some n =>
    if h : e.name ≠ [] ∧ d.get? e.name.dropLast = some .dir ∧ d.get? e.name = none then
      .ok (true, d.put e.name n h.1 ⟨.dir, h.2.1, rfl⟩ (.inr (by simp [h.2.2])))
    else .error .io

/-- The entry of a file `a`. -/
def sampleEntry : TarEntry := ⟨[['a']], .file [104, 105]⟩

def sampleArchive : Bytes := ustarEntry sampleEntry ++ List.replicate 1024 0

/-- Its archive, compressed at level 3. -/
def sampleFrame : Bytes :=
  [40, 181, 47, 253, 0, 88, 117, 2, 0, 212, 2, 97, 0, 48, 48, 48, 48, 54, 52, 52, 48, 48, 48, 48,
    48, 48, 50, 0, 49, 48, 52, 54, 49, 48, 50, 48, 50, 51, 54, 48, 54, 51, 0, 48, 0, 0, 0, 117,
    115, 116, 97, 114, 32, 32, 104, 105, 11, 0, 99, 129, 31, 4, 17, 32, 32, 69, 1, 210, 16, 34, 240,
    108, 76, 200, 59, 102, 138, 161, 218, 10, 208, 173, 92, 251, 39, 128, 5]

def sampleHost : Host where
  sha256 data := if data = sampleArchive then
      ⟨[51, 161, 26, 140, 134, 70, 41, 218, 218, 70, 122, 118, 216, 37, 131, 175, 145, 235, 13, 56,
        170, 37, 25, 57, 135, 192, 204, 125, 209, 246, 28, 156], rfl⟩
    else zeroHash
  tarEntry := ustarEntry
  tarTrailer := List.replicate 1024 0
  zstd level data := if level = 3 ∧ data = sampleArchive then sampleFrame else zstdMagic ++ data
  -- a link leads to a file outside, which holds the same two bytes
  leads _ := some (.file (some [104, 105]))
  creates := true
  encodes _ := true
  takes _ buf := some (Fin.last buf.length)

def sampleUnpacker : Unpacker where
  unzstd file := if file = sampleFrame then some sampleArchive else none
  untar data := if data = sampleArchive then [some sampleEntry] else [none]
  unpackIn := unpackNew
  createsDir := true

/-- A directory with one entry `a`. -/
def oneEntry (n : DiskNode) : DiskTree :=
  DiskTree.empty.put [['a']] n (by decide) ⟨.dir, by simp, rfl⟩ (.inr fun c hc => by simp at hc)

theorem get?_oneEntry (n : DiskNode) (p : Path) :
    (oneEntry n).get? p =
      if p = [['a']] then some n else if p = [] then some .dir else none := by
  rw [oneEntry, PathMap.get?_put, DiskTree.get?_empty]

namespace Host

theorem restores_sampleUnpacker : sampleUnpacker.Restores where
  unpack_new := by
    intro e d n _ hne hparent hclear hnode
    refine ⟨d.put e.name n hne ⟨.dir, hparent, rfl⟩ (.inr (by simp [hclear])), ?_, ?_⟩
    · change unpackNew e d = _
      simp [unpackNew, hnode, hne, hparent, hclear]
    · intro p
      rw [PathMap.get?_put]
  link_of_unpack := by
    intro e d b d' hunpack hbody p x hp
    change unpackNew e d = _ at hunpack
    unfold unpackNew at hunpack
    split at hunpack
    · cases hunpack
    · rename_i n hnode
      split at hunpack
      · cases hunpack
        rw [PathMap.get?_put] at hp
        split at hp
        · cases hp
          cases hkind : e.body with
          | symlink y => exact absurd hkind (hbody y)
          | file content => simp [hkind, Unpacker.node] at hnode
          | directory => simp [hkind, Unpacker.node] at hnode
          | special => simp [hkind, Unpacker.node] at hnode
        · exact hp
      · cases hunpack

theorem untar_sampleUnpacker (data : Bytes) :
    sampleUnpacker.untar data = if data = sampleArchive then [some sampleEntry] else [none] := rfl

theorem zstd_sampleHost (level : Int) (data : Bytes) :
    sampleHost.zstd level data =
      if level = 3 ∧ data = sampleArchive then sampleFrame else zstdMagic ++ data := rfl

theorem flowing_sampleHost : sampleHost.Flowing :=
  Host.flowing_of_takesAll _ fun _ _ => rfl

theorem archive_sampleHost : sampleHost.archive [sampleEntry] = sampleArchive := by
  rw [archive, List.flatMap_cons, List.flatMap_nil, List.append_nil]
  rfl

theorem decodes_sampleHost {n : DiskNode}
    (hes : sampleHost.entriesOf (oneEntry n) = .ok [sampleEntry]) :
    sampleHost.Decodes sampleUnpacker (oneEntry n) 3 where
  zstd_magic := by
    intro es h
    cases hes.symm.trans h
    rw [archive_sampleHost]
    decide +kernel
  unzstd := by
    intro es h
    cases hes.symm.trans h
    rw [archive_sampleHost]
    decide +kernel
  untar := by
    intro es h
    cases hes.symm.trans h
    rw [archive_sampleHost]
    rw [untar_sampleUnpacker, if_pos rfl]
    rfl

theorem named_oneEntry (n : DiskNode) : (oneEntry n).Named := by
  intro p hp
  rw [get?_oneEntry] at hp
  split at hp
  · subst p
    decide
  · split at hp
    · subst p
      nofun
    · cases hp

theorem oneEntry_ne {n m : DiskNode} (hn : n ≠ m) (hm : m ≠ .dir) (p : Path) :
    (oneEntry n).get? p ≠ some m := by
  rw [get?_oneEntry]
  split
  · exact fun h => hn (Option.some.inj h)
  · split
    · exact fun h => hm (Option.some.inj h).symm
    · nofun

theorem file_roundTrips :
    sampleHost.RoundTrips sampleUnpacker (oneEntry (.file (some [104, 105]))) ⟨"out".toList, 3⟩ := by
  refine (roundTrips_iff sampleHost flowing_sampleHost rfl restores_sampleUnpacker rfl rfl
    (decodes_sampleHost rfl) (named_oneEntry _) ?_).mpr (.inl ?_)
  · exact oneEntry_ne (by simp) (by simp)
  · exact fun p x => oneEntry_ne (by simp) (by simp) p

/-- A link to a file outside comes back as a copy of that file. -/
theorem link_comes_back_as_file :
    (∃ report, sampleHost.captureLayer (some (oneEntry (.link "../secret".toList)))
        ⟨"out".toList, 3⟩ = .ok (report, sampleFrame)) ∧
      sampleUnpacker.applyBlob "out".toList (some sampleFrame) (some .empty) =
        .ok (⟨1, 2⟩, oneEntry (.file (some [104, 105]))) ∧
      ¬ sampleHost.RoundTrips sampleUnpacker (oneEntry (.link "../secret".toList))
        ⟨"out".toList, 3⟩ := by
  have hes : sampleHost.entriesOf (oneEntry (.link "../secret".toList)) = .ok [sampleEntry] := rfl
  have hencodes : sampleHost.encodes (⟨"out".toList, 3⟩ : CaptureOptions).zstdLevel = true := rfl
  have hcapture := captureLayer_eq sampleHost flowing_sampleHost rfl hencodes hes
  have happly := applyBlob_archive sampleHost (decodes_sampleHost hes) rfl hes "out".toList .empty
  rw [archive_sampleHost, zstd_sampleHost, if_pos ⟨rfl, rfl⟩] at hcapture happly
  have hfile : sampleUnpacker.applyEntries [some sampleEntry] .empty 0 0 =
      .ok (⟨1, 2⟩, oneEntry (.file (some [104, 105]))) := rfl
  refine ⟨⟨_, hcapture⟩, happly.trans hfile, fun hround => ?_⟩
  obtain ⟨applied, d, hd, -, hsame⟩ := hround.reproduces _ _ hcapture
  cases (happly.trans hfile).symm.trans hd
  have := hsame [['a']]
  rw [get?_oneEntry, get?_oneEntry] at this
  cases this

end Host

end Rspacefs
