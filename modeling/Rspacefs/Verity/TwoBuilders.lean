import Rspacefs.Verity.ManifestHash
import Rspacefs.Vfs.DiskLinks

/-!
# The two builders of a manifest

`build_from_vfs` and `build_from_dir` of `rspacefs-verity/src/verity.rs` over the same tree of
directories and regular files. Either walk finds the files, each in an order of its own; the
map sorts their paths, so what is built depends on neither walk nor on the order in which the
directories enumerate their entries.

## Main definitions

* `appended`, `builtFrom` — what either loop makes of a file, and of all of them

## Main results

* `sortedKeys_congr` — the sorted paths depend on what was found alone
* `builders_agree` — the builders agree, for every order of enumeration
-/

namespace Rspacefs

open Lib

namespace MerkleTree

variable {sha256 : Bytes → Hash256} {u u' : Tree} {t t' : DiskTree} {paths paths' : List Path}
  {path : Path} {frames : Nat}

/-! ### The loops -/

/-- A file put behind the data so far, and its entry behind the entries so far. -/
def appended (sha256 : Bytes → Hash256) (content : Path → Bytes) (acc : Bytes × List FileEntry)
    (path : Path) : Bytes × List FileEntry :=
  (alignBlocks (acc.1 ++ content path), acc.2 ++ [⟨path, (content path).length,
    sha256 (content path), sha256 (utf8 (metaLine path (content path).length 0)),
    (acc.1.length / blockSize, (alignBlocks (acc.1 ++ content path)).length / blockSize), .file,
    none⟩])

theorem addFile_appended {content : Path → Bytes} (h : u.get? path = some (.file (content path)))
    (acc : Bytes × List FileEntry) :
    addFile sha256 u acc path = .ok (appended sha256 content acc path) :=
  addFile_eq acc (Tree.metadata_of_some h) (Tree.openFile_of_some h) rfl

theorem addDiskEntry_appended {content : Path → Bytes}
    (h : t.get? path = some (.file (some (content path)))) (acc : Bytes × List FileEntry) :
    addDiskEntry sha256 t acc path = .ok (appended sha256 content acc path) := by
  have hfound : diskContent t path = .ok (some (.file, content path, none)) := by
    rw [diskContent, h]
  rw [addDiskEntry, hfound, ok_bind]
  rfl

/-- A loop whose turns do not fail. -/
theorem foldlM_eq_foldl {α β ε : Type} {step : β → α → Except ε β} {next : β → α → β} {l : List α}
    (h : ∀ a ∈ l, ∀ acc, step acc a = .ok (next acc a)) (acc : β) :
    l.foldlM step acc = .ok (l.foldl next acc) := by
  induction l generalizing acc with
  | nil => rfl
  | cons a l ih =>
    obtain ⟨hfirst, hrest⟩ := List.forall_mem_cons.mp h
    rw [List.foldlM_cons, hfirst, ok_bind, List.foldl_cons, ih hrest]

/-- The tree and the manifest over the data and the entries. -/
def builtFrom (sha256 : Bytes → Hash256) (scanned : Bytes × List FileEntry) :
    MerkleTree × LayerManifest :=
  (build sha256 scanned.1, {
    files := scanned.2
    manifestHash := sha256 (scanned.2.flatMap fun f => f.contentHash.val ++ f.metadataHash.val)
    rootHash := (build sha256 scanned.1).rootHash
    blockSize })

theorem buildFromVfs_of_paths {content : Path → Bytes} (hpaths : collectFiles u frames [] = .ok paths)
    (hfile : ∀ p ∈ paths, u.get? p = some (.file (content p))) :
    buildFromVfs sha256 frames u =
      .ok (builtFrom sha256 ((sortedKeys paths).foldl (appended sha256 content) ([], []))) := by
  have hfold : (sortedKeys paths).foldlM (addFile sha256 u) ([], []) = .ok _ :=
    foldlM_eq_foldl (fun p hp => addFile_appended (hfile p (mem_sortedKeys.mp hp))) ([], [])
  rw [buildFromVfs, layerData, hpaths, ok_bind, hfold]
  rfl

theorem buildFromDir_of_paths {content : Path → Bytes}
    (hpaths : collectFilesLstat t frames [] = .ok paths)
    (hfile : ∀ p ∈ paths, t.get? p = some (.file (some (content p)))) :
    buildFromDir sha256 frames t =
      .ok (builtFrom sha256 ((sortedKeys paths).foldl (appended sha256 content) ([], []))) := by
  have hfold : (sortedKeys paths).foldlM (addDiskEntry sha256 t) ([], []) = .ok _ :=
    foldlM_eq_foldl (fun p hp => addDiskEntry_appended (hfile p (mem_sortedKeys.mp hp))) ([], [])
  rw [buildFromDir, diskData, hpaths, ok_bind, hfold]
  rfl

/-! ### The walks -/

/-- The sorted paths depend on what was found alone. -/
theorem sortedKeys_congr (hnamed : ∀ p ∈ paths, ∀ n ∈ p, ValidName n)
    (h : ∀ p, p ∈ paths ↔ p ∈ paths') : sortedKeys paths = sortedKeys paths' := by
  have htotal : Std.Total fun p q : Path => relPath p ≤ relPath q :=
    ⟨fun p q => le_total (relPath p) (relPath q)⟩
  have htrans : IsTrans Path fun p q => relPath p ≤ relPath q :=
    ⟨fun p q r hpq hqr => le_trans hpq hqr⟩
  have hsorted : ∀ l : List Path, (sortedKeys l).Pairwise fun p q => relPath p ≤ relPath q :=
    fun l => (List.pairwise_insertionSort _ l).sublist (List.dedup_sublist _)
  have hperm : (sortedKeys paths).Perm (sortedKeys paths') := by
    apply (List.perm_ext_iff_of_nodup (List.nodup_dedup _) (List.nodup_dedup _)).mpr
    intro p
    exact mem_sortedKeys.trans ((h p).trans mem_sortedKeys.symm)
  apply List.Perm.eq_of_pairwise _ (hsorted paths) (hsorted paths') hperm
  intro p q hp hq hpq hqp
  have hq := (h q).mpr (mem_sortedKeys.mp hq)
  exact relPath_injective (hnamed p (mem_sortedKeys.mp hp)) (hnamed q hq) (le_antisymm hpq hqp)

/-- With frames for every directory the walk of `build_from_vfs` returns. -/
theorem exists_collectFiles {dir : Path} (hdir : u.get? dir = some .dir)
    (hdeep : ∀ p, dir <+: p → (u.get? p).isSome → p.length < dir.length + frames) :
    ∃ paths, collectFiles u frames dir = .ok paths := by
  induction frames generalizing dir with
  | zero =>
    have := hdeep dir (List.prefix_refl _) (by rw [hdir]; rfl)
    omega
  | succ frames ih =>
    rw [collectFiles, Tree.readDir_dir hdir, ok_bind]
    refine exists_bind_eq_ok (exists_mapM_eq_ok fun name hname => ?_) fun found => ⟨_, rfl⟩
    obtain ⟨n, hn⟩ := Option.isSome_iff_exists.mp (PathMap.mem_children.mp hname)
    rw [Tree.metadata_of_some hn]
    cases n with
    | file c => exact ⟨_, rfl⟩
    | dir =>
      apply ih hn
      intro p hbelow hsome
      have := hdeep p ((List.prefix_append _ _).trans hbelow) hsome
      rw [List.length_append, List.length_singleton]
      omega

/-! ### The builders -/

/-- The content of a file of a layer. -/
def bytesAt (u : Tree) (path : Path) : Bytes :=
  match u.get? path with
  | some (.file content) => content
  | _ => []

theorem get?_bytesAt {c : Bytes} (h : u.get? path = some (.file c)) :
    u.get? path = some (.file (bytesAt u path)) := by
  rw [bytesAt, h]

/-- What `build_from_vfs` makes of a layer. -/
theorem buildFromVfs_eq (hnamed : ∀ p, (u.get? p).isSome → ∀ n ∈ p, ValidName n)
    (hdeep : ∀ p, (u.get? p).isSome → p.length < frames)
    (hpaths : ∀ p, p ∈ paths ↔ ∃ c, u.get? p = some (.file c)) :
    buildFromVfs sha256 frames u =
      .ok (builtFrom sha256 ((sortedKeys paths).foldl (appended sha256 (bytesAt u)) ([], []))) := by
  have hwalk : ∃ found, collectFiles u frames [] = .ok found := by
    apply exists_collectFiles u.get?_root
    intro p _ hsome
    simpa using hdeep p hsome
  obtain ⟨found, hfound⟩ := hwalk
  have hmem : ∀ p, p ∈ found ↔ ∃ c, u.get? p = some (.file c) := by
    intro p
    rw [mem_collectFiles hfound, and_iff_right List.nil_prefix]
  have hfile : ∀ p ∈ found, u.get? p = some (.file (bytesAt u p)) := by
    intro p hp
    obtain ⟨c, hc⟩ := (hmem p).mp hp
    exact get?_bytesAt hc
  rw [buildFromVfs_of_paths hfound hfile, sortedKeys_congr _ fun p => (hmem p).trans (hpaths p).symm]
  intro p hp
  exact hnamed p (by rw [hfile p hp]; rfl)

/-- What `build_from_dir` makes of the layer on disk. -/
theorem buildFromDir_eq (ht : OnDisk u t)
    (hnamed : ∀ p, (u.get? p).isSome → ∀ n ∈ p, ValidName n)
    (hdeep : ∀ p, (u.get? p).isSome → p.length < frames)
    (hpaths : ∀ p, p ∈ paths ↔ ∃ c, u.get? p = some (.file c)) :
    buildFromDir sha256 frames t =
      .ok (builtFrom sha256 ((sortedKeys paths).foldl (appended sha256 (bytesAt u)) ([], []))) := by
  have hsome : ∀ p, (t.get? p).isSome = (u.get? p).isSome := by
    intro p
    rw [ht, Option.isSome_map]
  -- the walk meets the files of the tree, in an order that the sort makes irrelevant
  have hwalk : collectFilesLstat t frames [] =
      .ok (((walked t frames []).filter (·.2 ≠ .dir)).map (·.1)) := by
    apply collectFilesLstat_eq t.get?_root
    intro p _ hp
    rw [hsome] at hp
    simpa using hdeep p hp
  have hmem : ∀ p, p ∈ ((walked t frames []).filter (·.2 ≠ .dir)).map (·.1) ↔
      ∃ c, u.get? p = some (.file c) := by
    intro p
    simp only [List.mem_map, List.mem_filter, decide_eq_true_eq]
    constructor
    · rintro ⟨⟨q, b⟩, ⟨hmet, hfile⟩, rfl⟩
      obtain ⟨-, -, -, hget⟩ := (PathMap.mem_walk t.lists_sorted).mp hmet
      obtain ⟨n, hn, rfl⟩ := Option.map_eq_some_iff.mp ((ht q).symm.trans hget)
      cases n with
      | file c => exact ⟨c, hn⟩
      | dir => exact absurd rfl hfile
    · rintro ⟨c, hc⟩
      have hget : t.get? p = some (.file (some c)) := by
        rw [ht, hc]
        rfl
      have hlen := hdeep p (by rw [hc]; rfl)
      refine ⟨(p, .file (some c)), ⟨(PathMap.mem_walk t.lists_sorted).mpr ?_, by simp⟩, rfl⟩
      exact ⟨List.nil_prefix, (Tree.ne_nil_of_file hc).symm, by simpa using hlen.le, hget⟩
  have hfile : ∀ p ∈ ((walked t frames []).filter (·.2 ≠ .dir)).map (·.1),
      t.get? p = some (.file (some (bytesAt u p))) := by
    intro p hp
    obtain ⟨c, hc⟩ := (hmem p).mp hp
    rw [ht, get?_bytesAt hc]
    rfl
  rw [buildFromDir_of_paths hwalk hfile, sortedKeys_congr _ fun p => (hmem p).trans (hpaths p).symm]
  intro p hp
  refine hnamed p ?_
  rw [← hsome, hfile p hp]
  rfl

/-- Over one tree of directories and files the two builders build the same, whatever order its
directories are enumerated in. -/
theorem builders_agree (sha256 : Bytes → Hash256) {u u' : Tree} {t t' : DiskTree}
    (hnamed : ∀ p, (u.get? p).isSome → ∀ n ∈ p, ValidName n) (hu : ∀ p, u'.get? p = u.get? p)
    (ht : OnDisk u t) (ht' : OnDisk u t') :
    ∃ built n, ∀ frames, n ≤ frames →
      buildFromVfs sha256 frames u = .ok built ∧ buildFromVfs sha256 frames u' = .ok built ∧
      buildFromDir sha256 frames t = .ok built ∧ buildFromDir sha256 frames t' = .ok built := by
  obtain ⟨depth, hdepth⟩ := PathMap.exists_depth u
  have hfound : ∃ paths, collectFiles u (depth + 1) [] = .ok paths := by
    apply exists_collectFiles u.get?_root
    intro p _ hsome
    have := hdepth p hsome
    rw [List.length_nil]
    omega
  obtain ⟨paths, hfound⟩ := hfound
  have hpaths : ∀ p, p ∈ paths ↔ ∃ c, u.get? p = some (.file c) := by
    intro p
    rw [mem_collectFiles hfound, and_iff_right List.nil_prefix]
  -- both builders sort the paths, so only the set of paths and the bytes matter
  have hbytes : bytesAt u' = bytesAt u := by
    funext p
    rw [bytesAt, bytesAt, hu]
  refine ⟨builtFrom sha256 ((sortedKeys paths).foldl (appended sha256 (bytesAt u)) ([], [])),
    depth + 1, fun frames hframes => ?_⟩
  have hdeep : ∀ p, (u.get? p).isSome → p.length < frames := by
    intro p hsome
    have := hdepth p hsome
    omega
  refine ⟨buildFromVfs_eq hnamed hdeep hpaths, ?_, buildFromDir_eq ht hnamed hdeep hpaths,
    buildFromDir_eq ht' hnamed hdeep hpaths⟩
  rw [← hbytes]
  apply buildFromVfs_eq
  · intro p hsome
    exact hnamed p (by rwa [← hu])
  · intro p hsome
    exact hdeep p (by rwa [← hu])
  · intro p
    rw [hpaths, hu]

/-- The layer with two files, its entries enumerated the other way round. -/
def twoFileReversed : Tree := .ofEntries [(["b".toList], .file [2, 3]), (["a".toList], .file [1])]

/-- Directories on disk with the two files, enumerated in either order. -/
def twoFileDisk : DiskTree :=
  .ofEntries [(["a".toList], .file (some [1])), (["b".toList], .file (some [2, 3]))]

def twoFileDiskReversed : DiskTree :=
  .ofEntries [(["b".toList], .file (some [2, 3])), (["a".toList], .file (some [1]))]

theorem builders_agree_twoFiles :
    Rspacefs.readDir twoFileLayer [] = .ok ["b".toList, "a".toList] ∧
    Rspacefs.readDir twoFileReversed [] = .ok ["a".toList, "b".toList] ∧
    ∃ built n, ∀ frames, n ≤ frames →
      buildFromVfs VerifiedReader.oneByteSha256 frames twoFileLayer = .ok built ∧
      buildFromVfs VerifiedReader.oneByteSha256 frames twoFileReversed = .ok built ∧
      buildFromDir VerifiedReader.oneByteSha256 frames twoFileDisk = .ok built ∧
      buildFromDir VerifiedReader.oneByteSha256 frames twoFileDiskReversed = .ok built := by
  have hdisk : OnDisk twoFileLayer twoFileDisk := PathMap.get?_eq_map_of_keys (by decide)
  have hdisk' : OnDisk twoFileLayer twoFileDiskReversed := PathMap.get?_eq_map_of_keys (by decide)
  refine ⟨by decide, by decide, builders_agree _ ?_ (fun p => ?_) hdisk hdisk'⟩
  · intro p hsome
    rw [PathMap.get?, AList.lookup_isSome, AList.mem_keys] at hsome
    revert p
    decide
  · have hsame := PathMap.get?_eq_map_of_keys (t := twoFileLayer) (u := twoFileReversed) (f := id)
      (by decide) p
    rwa [Option.map_id] at hsame

end MerkleTree

end Rspacefs
