import Rspacefs.Verity.DirManifest
import Rspacefs.Verity.Verify

/-!
# What a manifest hash binds

`manifest_hash` of `rspacefs-verity/src/verity.rs` is the hash of two digests for each entry of
the manifest, put end to end: of its content, and of the text `path:size:kind`. The digests are
of one length, and the text is read back from its end, since a path may hold colons and digits.
So the hash binds the whole list, whichever of the two builders made it.

## Main definitions

* `Recorded` — what a manifest records of a path
* `vfsRecorded`, `diskRecorded` — what the two builders record
* `listed` — what a manifest lists

## Main results

* `metaLine_injective`, `recorded_eq` — what the texts and the hash determine
* `manifestHash_binds` — manifests of one hash list the same
-/

namespace Rspacefs

open Lib

namespace MerkleTree

/-! ### The texts -/

theorem utf8_injective {text text' : List Char} (h : utf8 text = utf8 text') : text = text' := by
  apply String.ofList_injective
  apply String.toByteArray_inj.mp
  have hbytes : text.flatMap String.utf8EncodeChar = text'.flatMap String.utf8EncodeChar := h
  simp [List.utf8Encode, hbytes]

theorem colon_not_mem_toDigits (n : Nat) : ':' ∉ Nat.toDigits 10 n := by
  intro hmem
  exact absurd (Nat.isDigit_of_mem_toDigits (by decide) (by decide) hmem) (by decide)

/-- The text of a path determines its names. -/
theorem render_injective {p q : Path} (hp : ∀ n ∈ p, '/' ∉ n) (hq : ∀ n ∈ q, '/' ∉ n)
    (h : render p = render q) : p = q := by
  induction p using List.reverseRecOn generalizing q with
  | nil =>
    cases q with
    | nil => rfl
    | cons n q => cases h
  | append_singleton p n ih =>
    induction q using List.reverseRecOn with
    | nil =>
      rw [render_append] at h
      simp [render] at h
    | append_singleton q m _ =>
      rw [render_append, render_append] at h
      simp only [render, List.append_nil] at h
      obtain ⟨hinit, rfl⟩ := append_cons_inj (hp n (by simp)) (hq m (by simp)) h
      rw [ih (fun k hk => hp k (by simp [hk])) (fun k hk => hq k (by simp [hk])) hinit]

theorem relPath_injective {p q : Path} (hp : ∀ n ∈ p, ValidName n) (hq : ∀ n ∈ q, ValidName n)
    (h : relPath p = relPath q) : p = q := by
  have hne : ∀ {n : Name} {r : Path}, ValidName n → relPath (n :: r) ≠ relPath [] := by
    intro n r hn heq
    have hnil : n ++ render r = [] := heq
    exact hn.1 (List.append_eq_nil_iff.mp hnil).1
  cases p with
  | nil =>
    cases q with
    | nil => rfl
    | cons m q => exact absurd h.symm (hne (hq m (by simp)))
  | cons n p =>
    cases q with
    | nil => exact absurd h (hne (hp n (by simp)))
    | cons m q =>
      apply render_injective (fun k hk => (hp k hk).2.1) (fun k hk => (hq k hk).2.1)
      exact congrArg (List.cons '/') h

/-- The text `path:size:kind` determines its three parts. -/
theorem metaLine_injective {p q : Path} {size size' kind kind' : Nat} (hp : ∀ n ∈ p, ValidName n)
    (hq : ∀ n ∈ q, ValidName n) (h : metaLine p size kind = metaLine q size' kind') :
    p = q ∧ size = size' ∧ kind = kind' := by
  unfold metaLine at h
  rw [← List.cons_append, ← List.append_assoc, ← List.cons_append, ← List.append_assoc] at h
  obtain ⟨h, hkind⟩ := append_cons_inj (colon_not_mem_toDigits _) (colon_not_mem_toDigits _) h
  obtain ⟨hpath, hsize⟩ := append_cons_inj (colon_not_mem_toDigits _) (colon_not_mem_toDigits _) h
  exact ⟨relPath_injective hp hq hpath, toDigits_injective hsize, toDigits_injective hkind⟩

/-! ### What is recorded -/

/-- What stands at a path of a manifest. -/
inductive Held
  | file (content : Bytes)
  | link (target : List Char)
  deriving DecidableEq

namespace Held

def kind : Held → EntryKind
  | .file _ => .file
  | .link _ => .symlink

def content : Held → Bytes
  | .file content => content
  | .link target => utf8 target

def linkTarget : Held → Option (List Char)
  | .file _ => none
  | .link target => some target

def onDisk : Held → DiskNode
  | .file content => .file (some content)
  | .link target => .link target

/-- Kind and content say what stands there. -/
theorem eq_of_content {h h' : Held} (hkind : entryKindCode h.kind = entryKindCode h'.kind)
    (hcontent : h.content = h'.content) : h = h' := by
  cases h with
  | file c =>
    cases h' with
    | file c' => exact congrArg _ hcontent
    | link target' => cases hkind
  | link target =>
    cases h' with
    | file c' => cases hkind
    | link target' => exact congrArg _ (utf8_injective hcontent)

end Held

/-- What a manifest records of a path. -/
structure Recorded where
  path : Path
  size : Nat
  held : Held
  deriving DecidableEq

namespace Recorded

/-- The text whose hash stands for the metadata. -/
def line (r : Recorded) : Bytes := utf8 (metaLine r.path r.size (entryKindCode r.held.kind))

/-- The two digests of an entry. -/
def digests (sha256 : Bytes → Hash256) (r : Recorded) : Bytes :=
  (sha256 r.held.content).val ++ (sha256 r.line).val

/-- All that is hashed for the manifest hash of these entries. -/
def hashed (sha256 : Bytes → Hash256) (rs : List Recorded) : List Bytes :=
  rs.flatMap (digests sha256) :: rs.flatMap fun r => [r.held.content, r.line]

/-- Its names are names. -/
def Named (r : Recorded) : Prop := ∀ n ∈ r.path, ValidName n

end Recorded

variable {sha256 : Bytes → Hash256} {rs rs' : List Recorded} {r r' : Recorded}

theorem Recorded.digests_injective {l : List Bytes} (hfree : CollisionFree sha256 l)
    (hcontent : r.held.content ∈ l) (hcontent' : r'.held.content ∈ l) (hline : r.line ∈ l)
    (hline' : r'.line ∈ l) (hr : r.Named) (hr' : r'.Named)
    (h : r.digests sha256 = r'.digests sha256) : r = r' := by
  have hpair := Prod.mk.inj (val_append_inj h)
  have hheld := hfree _ hcontent _ hcontent' hpair.1
  obtain ⟨hpath, hsize, hkind⟩ :=
    metaLine_injective hr hr' (utf8_injective (hfree _ hline _ hline' hpair.2))
  obtain ⟨path, size, held⟩ := r
  obtain ⟨path', size', held'⟩ := r'
  rw [Recorded.mk.injEq]
  exact ⟨hpath, hsize, Held.eq_of_content hkind hheld⟩

/-- Digests put end to end determine the entries, item by item. -/
theorem recorded_eq_of_digests {l : List Bytes} (hfree : CollisionFree sha256 l)
    (hl : ∀ r ∈ rs ++ rs', r.held.content ∈ l ∧ r.line ∈ l) (hnamed : ∀ r ∈ rs ++ rs', r.Named)
    (h : rs.flatMap (Recorded.digests sha256) = rs'.flatMap (Recorded.digests sha256)) :
    rs = rs' := by
  -- an entry has two digests, so the lists are cut at the same places
  have hlen : ∀ r : Recorded, (r.digests sha256).length = hashSize + hashSize := by
    intro r
    rw [Recorded.digests, List.length_append, (sha256 _).property, (sha256 _).property]
  have hpos : 0 < hashSize := by decide
  induction rs generalizing rs' with
  | nil =>
    cases rs' with
    | nil => rfl
    | cons r' rs' =>
      have hzero := congrArg List.length h
      rw [List.flatMap_nil, List.flatMap_cons, List.length_append, hlen, List.length_nil] at hzero
      omega
  | cons r rs ih =>
    cases rs' with
    | nil =>
      have hzero := congrArg List.length h
      rw [List.flatMap_nil, List.flatMap_cons, List.length_append, hlen, List.length_nil] at hzero
      omega
    | cons r' rs' =>
      rw [List.flatMap_cons, List.flatMap_cons] at h
      obtain ⟨hfirst, hrest⟩ := List.append_inj h (by rw [hlen, hlen])
      have hr : r ∈ r :: rs ++ r' :: rs' := by simp
      have hr' : r' ∈ r :: rs ++ r' :: rs' := by simp
      have hsub : ∀ x ∈ rs ++ rs', x ∈ r :: rs ++ r' :: rs' := by
        intro x hx
        rcases List.mem_append.mp hx with hx | hx <;> simp [hx]
      obtain rfl := Recorded.digests_injective hfree (hl r hr).1 (hl r' hr').1 (hl r hr).2
        (hl r' hr').2 (hnamed r hr) (hnamed r' hr') hfirst
      rw [ih (fun x hx => hl x (hsub x hx)) (fun x hx => hnamed x (hsub x hx)) hrest]

/-- The manifest hash binds what is recorded. -/
theorem recorded_eq
    (hfree : CollisionFree sha256 (Recorded.hashed sha256 rs ++ Recorded.hashed sha256 rs'))
    (hnamed : ∀ r ∈ rs ++ rs', r.Named)
    (h : sha256 (rs.flatMap (Recorded.digests sha256)) =
      sha256 (rs'.flatMap (Recorded.digests sha256))) : rs = rs' := by
  have hlist := hfree _ (List.mem_append_left _ List.mem_cons_self) _
    (List.mem_append_right _ List.mem_cons_self) h
  apply recorded_eq_of_digests hfree _ hnamed hlist
  intro r hr
  unfold Recorded.hashed
  simp only [List.mem_append, List.mem_cons, List.mem_flatMap]
  rcases List.mem_append.mp hr with hr | hr
  · exact ⟨Or.inl (Or.inr ⟨r, hr, by simp⟩), Or.inl (Or.inr ⟨r, hr, by simp⟩)⟩
  · exact ⟨Or.inr (Or.inr ⟨r, hr, by simp⟩), Or.inr (Or.inr ⟨r, hr, by simp⟩)⟩

/-! ### What the builders record -/

variable {σ τ : Type} [FileSystem σ] [FileSystem τ] {t t' : DiskTree}

/-- What `build_from_vfs` records. -/
def vfsRecorded (frames : Nat) (layer : σ) : VfsResult (List Recorded) := do
  let paths ← collectFiles layer frames []
  (sortedKeys paths).mapM fun path => do
    let md ← metadata layer path
    let content ← contentAt layer path
    return ⟨path, md.len, .file content⟩

/-- What stands at a path of a directory on disk, if it is recorded. -/
def heldAt (t : DiskTree) (path : Path) : Option Held :=
  match t.get? path with
  | some (.file (some content)) => some (.file content)
  | some (.link target) => some (.link target)
  | _ => none

def recordedAt (t : DiskTree) (path : Path) : List Recorded :=
  ((heldAt t path).map fun held => ⟨path, held.content.length, held⟩).toList

/-- What `build_from_dir` records. -/
def diskRecorded (frames : Nat) (t : DiskTree) : VfsResult (List Recorded) := do
  let paths ← collectFilesLstat t frames []
  return (sortedKeys paths).flatMap (recordedAt t)

/-- An entry of the manifest, and what it records. -/
structure Describes (sha256 : Bytes → Hash256) (f : FileEntry) (r : Recorded) : Prop where
  path : f.path = r.path
  size : f.size = r.size
  kind : f.kind = r.held.kind
  linkTarget : f.linkTarget = r.held.linkTarget
  digests : f.contentHash.val ++ f.metadataHash.val = r.digests sha256

/-- What a manifest lists. -/
def listed (mf : LayerManifest) : List (Path × Nat × EntryKind × Option (List Char)) :=
  mf.files.map fun f => (f.path, f.size, f.kind, f.linkTarget)

theorem Describes.listed_eq {files : List FileEntry} (h : List.Forall₂ (Describes sha256) files rs) :
    (files.map fun f => (f.path, f.size, f.kind, f.linkTarget)) =
      rs.map fun r => (r.path, r.size, r.held.kind, r.held.linkTarget) := by
  induction h with
  | nil => rfl
  | cons hfirst _ ih =>
    rw [List.map_cons, List.map_cons, ih, hfirst.path, hfirst.size, hfirst.kind, hfirst.linkTarget]

theorem Describes.digests_eq {files : List FileEntry}
    (h : List.Forall₂ (Describes sha256) files rs) :
    (files.flatMap fun f => f.contentHash.val ++ f.metadataHash.val) =
      rs.flatMap (Recorded.digests sha256) := by
  induction h with
  | nil => rfl
  | cons hfirst _ ih => rw [List.flatMap_cons, List.flatMap_cons, ih, hfirst.digests]

theorem addFile_describes {layer : σ} {acc acc' : Bytes × List FileEntry} {path : Path}
    {md : VfsMetadata} (hmd : metadata layer path = .ok md) (hfile : md.fileType = .file)
    (h : addFile sha256 layer acc path = .ok acc') :
    ∃ f content, contentAt layer path = .ok content ∧ acc'.2 = acc.2 ++ [f] ∧
      Describes sha256 f ⟨path, md.len, .file content⟩ := by
  obtain ⟨md', hmd', hadd⟩ := except_bind_eq_ok.mp h
  obtain ⟨reader, hopen, hadd⟩ := except_bind_eq_ok.mp hadd
  obtain ⟨buf, hread, hadd⟩ := except_bind_eq_ok.mp hadd
  obtain rfl := Except.ok.inj hadd
  obtain rfl := Except.ok.inj (hmd.symm.trans hmd')
  refine ⟨_, buf, by rw [contentAt, hopen, ok_bind, hread], rfl, rfl, rfl, rfl, rfl, ?_⟩
  rw [metaText_eq, hfile]
  rfl

/-- The loop of `build_from_vfs` lists what is recorded. -/
theorem foldlM_addFile_describes {layer : σ} {paths : List Path}
    {acc acc' : Bytes × List FileEntry}
    (hfile : ∀ path ∈ paths, ∃ md, metadata layer path = .ok md ∧ md.fileType = .file)
    (h : paths.foldlM (addFile sha256 layer) acc = .ok acc') :
    ∃ rs files, (paths.mapM fun path => do
        let md ← metadata layer path
        let content ← contentAt layer path
        return (⟨path, md.len, .file content⟩ : Recorded)) = .ok rs ∧
      acc'.2 = acc.2 ++ files ∧ List.Forall₂ (Describes sha256) files rs := by
  induction paths generalizing acc with
  | nil =>
    obtain rfl := Except.ok.inj h
    exact ⟨[], [], rfl, (List.append_nil _).symm, .nil⟩
  | cons path paths ih =>
    obtain ⟨acc₁, hadd, hfold⟩ := except_bind_eq_ok.mp h
    obtain ⟨⟨md, hmd, htype⟩, hrest⟩ := List.forall_mem_cons.mp hfile
    obtain ⟨rs, files, hrs, hfiles, hdescribes⟩ := ih hrest hfold
    obtain ⟨f, content, hcontent, hf, hdescribed⟩ := addFile_describes hmd htype hadd
    refine ⟨⟨path, md.len, .file content⟩ :: rs, f :: files, ?_, ?_, .cons hdescribed hdescribes⟩
    · rw [List.mapM_cons, hmd, hcontent, hrs]
      rfl
    · rw [hfiles, hf, List.append_assoc]
      rfl

theorem addDiskEntry_describes {acc acc' : Bytes × List FileEntry} {path : Path}
    (h : addDiskEntry sha256 t acc path = .ok acc') :
    ∃ files, acc'.2 = acc.2 ++ files ∧
      List.Forall₂ (Describes sha256) files (recordedAt t path) := by
  obtain ⟨found, hfound, hadd⟩ := except_bind_eq_ok.mp h
  unfold diskContent at hfound
  unfold recordedAt heldAt
  cases hnode : t.get? path with
  | none =>
    rw [hnode] at hfound
    cases hfound
  | some node =>
    rw [hnode] at hfound
    cases node with
    | file content =>
      cases content with
      | none => cases hfound
      | some content =>
        obtain rfl := Except.ok.inj hfound
        obtain rfl := Except.ok.inj hadd
        exact ⟨_, rfl, .cons ⟨rfl, rfl, rfl, rfl, rfl⟩ .nil⟩
    | link target =>
      obtain rfl := Except.ok.inj hfound
      obtain rfl := Except.ok.inj hadd
      exact ⟨_, rfl, .cons ⟨rfl, rfl, rfl, rfl, rfl⟩ .nil⟩
    | dir =>
      obtain rfl := Except.ok.inj hfound
      obtain rfl := Except.ok.inj hadd
      exact ⟨[], (List.append_nil _).symm, .nil⟩
    | special =>
      obtain rfl := Except.ok.inj hfound
      obtain rfl := Except.ok.inj hadd
      exact ⟨[], (List.append_nil _).symm, .nil⟩

/-- The loop of `build_from_dir` lists what is recorded. -/
theorem foldlM_addDiskEntry_describes {paths : List Path} {acc acc' : Bytes × List FileEntry}
    (h : paths.foldlM (addDiskEntry sha256 t) acc = .ok acc') :
    ∃ files, acc'.2 = acc.2 ++ files ∧
      List.Forall₂ (Describes sha256) files (paths.flatMap (recordedAt t)) := by
  induction paths generalizing acc with
  | nil =>
    obtain rfl := Except.ok.inj h
    exact ⟨[], (List.append_nil _).symm, .nil⟩
  | cons path paths ih =>
    obtain ⟨acc₁, hadd, hfold⟩ := except_bind_eq_ok.mp h
    obtain ⟨first, hfirst, hdescribed⟩ := addDiskEntry_describes hadd
    obtain ⟨files, hfiles, hdescribes⟩ := ih hfold
    refine ⟨first ++ files, ?_, ?_⟩
    · rw [hfiles, hfirst, List.append_assoc]
    · rw [List.flatMap_cons]
      exact List.rel_append hdescribed hdescribes

/-- What `build_from_vfs` makes of a layer. -/
theorem describes_of_buildFromVfs {frames : Nat} {layer : σ} {tree : MerkleTree}
    {mf : LayerManifest} (h : buildFromVfs sha256 frames layer = .ok (tree, mf)) :
    ∃ rs, vfsRecorded frames layer = .ok rs ∧ List.Forall₂ (Describes sha256) mf.files rs ∧
      mf.manifestHash = sha256 (rs.flatMap (Recorded.digests sha256)) := by
  obtain ⟨⟨data, entries⟩, hdata, hbuild⟩ := except_bind_eq_ok.mp h
  obtain ⟨paths, hpaths, hfold⟩ := except_bind_eq_ok.mp hdata
  obtain ⟨rfl, rfl⟩ := Prod.mk.inj (Except.ok.inj hbuild)
  have hfile : ∀ path ∈ sortedKeys paths, ∃ md, metadata layer path = .ok md ∧
      md.fileType = .file := by
    intro path hpath
    rw [mem_sortedKeys] at hpath
    exact metadata_of_collectFiles hpaths hpath
  obtain ⟨rs, files, hrs, hfiles, hdescribes⟩ := foldlM_addFile_describes hfile hfold
  rw [List.nil_append] at hfiles
  obtain rfl : entries = files := hfiles
  refine ⟨rs, ?_, hdescribes, congrArg sha256 (Describes.digests_eq hdescribes)⟩
  rw [vfsRecorded, hpaths]
  exact hrs

/-- What `build_from_dir` makes of a directory. -/
theorem describes_of_buildFromDir {frames : Nat} {tree : MerkleTree} {mf : LayerManifest}
    (h : buildFromDir sha256 frames t = .ok (tree, mf)) :
    ∃ rs, diskRecorded frames t = .ok rs ∧ List.Forall₂ (Describes sha256) mf.files rs ∧
      mf.manifestHash = sha256 (rs.flatMap (Recorded.digests sha256)) := by
  obtain ⟨⟨data, entries⟩, hdata, hbuild⟩ := except_bind_eq_ok.mp h
  obtain ⟨paths, hpaths, hfold⟩ := except_bind_eq_ok.mp hdata
  obtain ⟨rfl, rfl⟩ := Prod.mk.inj (Except.ok.inj hbuild)
  obtain ⟨files, hfiles, hdescribes⟩ := foldlM_addDiskEntry_describes hfold
  rw [List.nil_append] at hfiles
  obtain rfl : entries = files := hfiles
  refine ⟨_, ?_, hdescribes, congrArg sha256 (Describes.digests_eq hdescribes)⟩
  rw [diskRecorded, hpaths]
  rfl

/-- The listings of a layer have names. -/
def ListsNames (layer : σ) : Prop :=
  ∀ dir names, readDir layer dir = .ok names → ∀ name ∈ names, ValidName name

theorem named_of_collectFiles {frames : Nat} {layer : σ} {dir path : Path} {paths : List Path}
    (hnames : ListsNames layer) (hdir : ∀ n ∈ dir, ValidName n)
    (h : collectFiles layer frames dir = .ok paths) (hp : path ∈ paths) :
    ∀ n ∈ path, ValidName n := by
  induction frames generalizing dir paths with
  | zero => cases h
  | succ frames ih =>
    obtain ⟨names, hlist, h⟩ := except_bind_eq_ok.mp h
    obtain ⟨found, hfound, h⟩ := except_bind_eq_ok.mp h
    obtain rfl := Except.ok.inj h
    obtain ⟨l, hl, hp⟩ := List.mem_flatten.mp hp
    obtain ⟨name, hname, hcall⟩ := mem_of_mapM_eq_ok hfound hl
    have hbelow : ∀ n ∈ dir ++ [name], ValidName n := by
      intro n hn
      rcases List.mem_append.mp hn with hn | hn
      · exact hdir n hn
      · rw [List.mem_singleton.mp hn]
        exact hnames dir names hlist name hname
    split at hcall
    · obtain rfl := Except.ok.inj hcall
      exact absurd hp List.not_mem_nil
    · split at hcall
      · exact ih hbelow hcall hp
      · obtain rfl := Except.ok.inj hcall
        rw [List.mem_singleton.mp hp]
        exact hbelow

/-- What `build_from_vfs` records stands in the layer. -/
theorem mem_vfsRecorded {frames : Nat} {layer : σ} (hnames : ListsNames layer)
    (h : vfsRecorded frames layer = .ok rs) (hr : r ∈ rs) :
    r.Named ∧ ∃ c, r.held = .file c ∧ contentAt layer r.path = .ok c := by
  obtain ⟨paths, hpaths, hrs⟩ := except_bind_eq_ok.mp h
  obtain ⟨path, hpath, hrecord⟩ := mem_of_mapM_eq_ok hrs hr
  obtain ⟨md, -, hrecord⟩ := except_bind_eq_ok.mp hrecord
  obtain ⟨content, hcontent, hrecord⟩ := except_bind_eq_ok.mp hrecord
  obtain rfl := Except.ok.inj hrecord
  rw [mem_sortedKeys] at hpath
  exact ⟨named_of_collectFiles hnames (by simp) hpaths hpath, content, rfl, hcontent⟩

/-- What `build_from_dir` records stands in the directory. -/
theorem mem_diskRecorded {frames : Nat} (hnamed : t.Named) (h : diskRecorded frames t = .ok rs)
    (hr : r ∈ rs) : r.Named ∧ t.get? r.path = some r.held.onDisk := by
  obtain ⟨paths, -, hrs⟩ := except_bind_eq_ok.mp h
  obtain rfl := Except.ok.inj hrs
  obtain ⟨path, -, hr⟩ := List.mem_flatMap.mp hr
  obtain ⟨held, hheld, rfl⟩ := Option.map_eq_some_iff.mp (Option.mem_toList.mp hr)
  have hget : t.get? path = some held.onDisk := by
    unfold heldAt at hheld
    split at hheld
    · rename_i hnode
      obtain rfl := Option.some.inj hheld
      exact hnode
    · rename_i hnode
      obtain rfl := Option.some.inj hheld
      exact hnode
    · cases hheld
  refine ⟨hnamed path ?_, hget⟩
  rw [hget]
  rfl

/-- Each path that is listed is recorded, and the other way round. -/
theorem Describes.paths_eq {files : List FileEntry} (h : List.Forall₂ (Describes sha256) files rs) :
    files.map (·.path) = rs.map (·.path) := by
  induction h with
  | nil => rfl
  | cons hfirst _ ih => rw [List.map_cons, List.map_cons, ih, hfirst.path]

theorem exists_described {files : List FileEntry}
    (h : List.Forall₂ (Describes sha256) files rs) {f : FileEntry} (hf : f ∈ files) :
    ∃ r ∈ rs, r.path = f.path := by
  have hpath : f.path ∈ files.map (·.path) := List.mem_map_of_mem hf
  rw [Describes.paths_eq h] at hpath
  exact List.mem_map.mp hpath

theorem exists_recorded {files : List FileEntry}
    (h : List.Forall₂ (Describes sha256) files rs) (hr : r ∈ rs) :
    ∃ f ∈ files, f.path = r.path := by
  have hpath : r.path ∈ rs.map (·.path) := List.mem_map_of_mem hr
  rw [← Describes.paths_eq h] at hpath
  exact List.mem_map.mp hpath

/-! ### The manifest hash -/

/-- No collision among what is hashed for two manifests. -/
def ManifestsFree (sha256 : Bytes → Hash256) (recorded recorded' : VfsResult (List Recorded)) :
    Prop :=
  ∀ rs rs', recorded = .ok rs → recorded' = .ok rs' →
    CollisionFree sha256 (Recorded.hashed sha256 rs ++ Recorded.hashed sha256 rs')

/-- Two manifests of one hash that the same builder made list the same paths with the same sizes,
kinds and targets, in the same order, and the same stands at each. -/
theorem manifestHash_binds (sha256 : Bytes → Hash256) {layer : σ} {layer' : τ} {t t' : DiskTree}
    (hlayer : ListsNames layer) (hlayer' : ListsNames layer') (ht : t.Named) (ht' : t'.Named)
    (frames frames' : Nat)
    (hvfs : ManifestsFree sha256 (vfsRecorded frames layer) (vfsRecorded frames' layer'))
    (hdir : ManifestsFree sha256 (diskRecorded frames t) (diskRecorded frames' t')) :
    (∀ tree mf tree' mf', buildFromVfs sha256 frames layer = .ok (tree, mf) →
      buildFromVfs sha256 frames' layer' = .ok (tree', mf') → mf.manifestHash = mf'.manifestHash →
        listed mf = listed mf' ∧ ∀ f ∈ mf.files, ∃ c,
          contentAt layer f.path = .ok c ∧ contentAt layer' f.path = .ok c) ∧
    (∀ tree mf tree' mf', buildFromDir sha256 frames t = .ok (tree, mf) →
      buildFromDir sha256 frames' t' = .ok (tree', mf') → mf.manifestHash = mf'.manifestHash →
        listed mf = listed mf' ∧ ∀ f ∈ mf.files, ∃ node,
          t.get? f.path = some node ∧ t'.get? f.path = some node) := by
  constructor
  · intro tree mf tree' mf' hbuild hbuild' hhash
    obtain ⟨rs, hrs, hfiles, hmf⟩ := describes_of_buildFromVfs hbuild
    obtain ⟨rs', hrs', hfiles', hmf'⟩ := describes_of_buildFromVfs hbuild'
    have hnamed : ∀ r ∈ rs ++ rs', r.Named := by
      intro r hr
      rcases List.mem_append.mp hr with hr | hr
      · exact (mem_vfsRecorded hlayer hrs hr).1
      · exact (mem_vfsRecorded hlayer' hrs' hr).1
    -- one hash, so what was recorded of the two layers is the same
    obtain rfl := recorded_eq (hvfs rs rs' hrs hrs') hnamed (by rw [← hmf, ← hmf', hhash])
    constructor
    · exact (Describes.listed_eq hfiles).trans (Describes.listed_eq hfiles').symm
    · intro f hf
      obtain ⟨r, hr, hpath⟩ := exists_described hfiles hf
      obtain ⟨-, c, hheld, hc⟩ := mem_vfsRecorded hlayer hrs hr
      obtain ⟨-, c', hheld', hc'⟩ := mem_vfsRecorded hlayer' hrs' hr
      obtain rfl := Held.file.inj (hheld.symm.trans hheld')
      rw [← hpath]
      exact ⟨c, hc, hc'⟩
  · intro tree mf tree' mf' hbuild hbuild' hhash
    obtain ⟨rs, hrs, hfiles, hmf⟩ := describes_of_buildFromDir hbuild
    obtain ⟨rs', hrs', hfiles', hmf'⟩ := describes_of_buildFromDir hbuild'
    have hnamed : ∀ r ∈ rs ++ rs', r.Named := by
      intro r hr
      rcases List.mem_append.mp hr with hr | hr
      · exact (mem_diskRecorded ht hrs hr).1
      · exact (mem_diskRecorded ht' hrs' hr).1
    obtain rfl := recorded_eq (hdir rs rs' hrs hrs') hnamed (by rw [← hmf, ← hmf', hhash])
    constructor
    · exact (Describes.listed_eq hfiles).trans (Describes.listed_eq hfiles').symm
    · intro f hf
      obtain ⟨r, hr, hpath⟩ := exists_described hfiles hf
      rw [← hpath]
      exact ⟨r.held.onDisk, (mem_diskRecorded ht hrs hr).2, (mem_diskRecorded ht' hrs' hr).2⟩

/-! ### Two files under one name -/

open VerifiedReader

/-- A directory with one file `f` of one byte. -/
def byteOnDisk (b : UInt8) : DiskTree :=
  DiskTree.empty.put ["f".toList] (.file (some [b])) (by decide) ⟨.dir, by simp, rfl⟩
    (.inr fun c hc => by simp at hc)

theorem named_byteOnDisk (b : UInt8) : (byteOnDisk b).Named := by
  intro p hp
  rw [byteOnDisk, PathMap.get?_put, DiskTree.get?_empty] at hp
  by_cases hfile : p = ["f".toList]
  · rw [hfile]
    decide
  · by_cases hroot : p = []
    · rw [hroot]
      simp
    · rw [if_neg hfile, if_neg hroot] at hp
      cases hp

theorem listsNames_of_keys {t : Tree} (h : ∀ p ∈ t.map.keys, ∀ n ∈ p, ValidName n) :
    ListsNames t := by
  intro dir names hlist name hname
  obtain ⟨-, rfl⟩ := Tree.readDir_eq_ok.mp hlist
  have hsome := PathMap.mem_children.mp hname
  rw [PathMap.get?, AList.lookup_isSome, AList.mem_keys] at hsome
  exact h _ hsome name (by simp)

/-- A layer with two files. -/
def twoFileLayer : Tree := .ofEntries [(["a".toList], .file [1]), (["b".toList], .file [2, 3])]

theorem listsNames_twoFileLayer : ListsNames twoFileLayer := listsNames_of_keys (by decide)

/-- What is recorded of the file. -/
def byteRecorded (b : UInt8) : Recorded := ⟨["f".toList], 1, .file [b]⟩

theorem manifestsFree_bytes {recorded recorded' : VfsResult (List Recorded)}
    (h : recorded = .ok [byteRecorded 1]) (h' : recorded' = .ok [byteRecorded 2]) :
    ManifestsFree threeSha256 recorded recorded' := by
  intro rs rs' hrs hrs'
  obtain rfl := Except.ok.inj (h.symm.trans hrs)
  obtain rfl := Except.ok.inj (h'.symm.trans hrs')
  -- the text is hashed for both
  have hinputs : (([(byteRecorded 1).digests threeSha256, [1], (byteRecorded 1).line,
      (byteRecorded 2).digests threeSha256, [2]].map threeSha256)).Nodup := by decide +kernel
  apply CollisionFree.of_nodup hinputs
  have hline : (byteRecorded 2).line = (byteRecorded 1).line := rfl
  intro x hx
  simp only [Recorded.hashed, List.flatMap_cons, List.flatMap_nil, List.append_nil, List.mem_append,
    List.mem_cons, List.not_mem_nil, or_false, hline] at hx ⊢
  rcases hx with (hx | hx | hx) | hx | hx | hx
  · exact Or.inl hx
  · exact Or.inr (Or.inl hx)
  · exact Or.inr (Or.inr (Or.inl hx))
  · exact Or.inr (Or.inr (Or.inr (Or.inl hx)))
  · exact Or.inr (Or.inr (Or.inr (Or.inr hx)))
  · exact Or.inr (Or.inr (Or.inl hx))

theorem manifestHash_binds_bytes :
    (¬ ∃ tree mf tree' mf', buildFromVfs threeSha256 8 oneByteLayer = .ok (tree, mf) ∧
      buildFromVfs threeSha256 8 otherLayer = .ok (tree', mf') ∧
        mf.manifestHash = mf'.manifestHash) ∧
    ¬ ∃ tree mf tree' mf', buildFromDir threeSha256 8 (byteOnDisk 1) = .ok (tree, mf) ∧
      buildFromDir threeSha256 8 (byteOnDisk 2) = .ok (tree', mf') ∧
        mf.manifestHash = mf'.manifestHash := by
  have hlisted : ListsNames oneByteLayer := listsNames_of_keys (by decide)
  have hlisted' : ListsNames otherLayer := listsNames_of_keys (by decide)
  have hvfs : vfsRecorded 8 oneByteLayer = .ok [byteRecorded 1] := by decide +kernel
  have hvfs' : vfsRecorded 8 otherLayer = .ok [byteRecorded 2] := by decide +kernel
  have hdisk : diskRecorded 8 (byteOnDisk 1) = .ok [byteRecorded 1] := by decide +kernel
  have hdisk' : diskRecorded 8 (byteOnDisk 2) = .ok [byteRecorded 2] := by decide +kernel
  obtain ⟨hbind, hbind'⟩ := manifestHash_binds threeSha256 hlisted hlisted' (named_byteOnDisk 1)
    (named_byteOnDisk 2) 8 8 (manifestsFree_bytes hvfs hvfs') (manifestsFree_bytes hdisk hdisk')
  constructor
  · rintro ⟨tree, mf, tree', mf', hbuild, hbuild', hhash⟩
    obtain ⟨-, hsame⟩ := hbind tree mf tree' mf' hbuild hbuild' hhash
    obtain ⟨rs, hrs, hfiles, -⟩ := describes_of_buildFromVfs hbuild
    obtain rfl := Except.ok.inj (hvfs.symm.trans hrs)
    obtain ⟨f, hf, hpath⟩ := exists_recorded hfiles List.mem_cons_self
    obtain ⟨c, hc, hc'⟩ := hsame f hf
    rw [hpath] at hc hc'
    obtain rfl : [1] = c := Except.ok.inj hc
    exact absurd hc' (by decide)
  · rintro ⟨tree, mf, tree', mf', hbuild, hbuild', hhash⟩
    obtain ⟨-, hsame⟩ := hbind' tree mf tree' mf' hbuild hbuild' hhash
    obtain ⟨rs, hrs, hfiles, -⟩ := describes_of_buildFromDir hbuild
    obtain rfl := Except.ok.inj (hdisk.symm.trans hrs)
    obtain ⟨f, hf, hpath⟩ := exists_recorded hfiles List.mem_cons_self
    obtain ⟨node, hnode, hnode'⟩ := hsame f hf
    rw [hpath] at hnode hnode'
    have hbytes : (byteOnDisk 1).get? ["f".toList] ≠ (byteOnDisk 2).get? ["f".toList] := by decide
    exact hbytes (hnode.trans hnode'.symm)

end MerkleTree

end Rspacefs
