import Rspacefs.Lib.PathMap
import Rspacefs.Vfs.FileSystem

/-!
# The tree backend

What the layers are assumed to be: a tree map of directories and regular files,
as `PhysicalFS` gives over a directory without symbolic links. Creating or
removing a file fails on a directory, creating a directory fails on an existing
entry, removing a directory fails unless it is empty, and listing a regular file
fails. A failing call changes nothing. The root is the directory the backend
was opened on, and it stays: taking it away while it is empty is left out of the
model, and the call fails here.

## Main definitions

* `Node`, `Tree` — entries and layers; a `Tree` is well formed by construction
* `Tree.ofEntries` — a layer written out
* `instance : FileSystem Tree`

## Main results

One lemma per method: when it succeeds, and what it leaves.
-/

namespace Rspacefs

open Lib

/-- A directory entry. -/
inductive Node
  | file (content : Bytes)
  | dir
  deriving DecidableEq, Repr

/-- A layer: a finite tree in which only directories have entries below them. -/
abbrev Tree := PathMap Name Node (· = .dir)

namespace Node

def fileType : Node → VfsFileType
  | .file _ => .file
  | .dir => .directory

def len : Node → Nat
  | .file content => content.length
  | .dir => 0

/-- A directory can be opened, and then fails to be read. -/
def reader : Node → Reader
  | .file content => ⟨.ok content⟩
  | .dir => ⟨.error .ioError⟩

end Node

namespace Tree

variable {t t' : Tree} {p q : Path} {n : Node} {c w : Bytes}

/-- The layer with nothing in it but its root. -/
def empty : Tree where
  map := AList.singleton [] .dir
  rooted := ⟨.dir, by decide, rfl⟩
  closed := by
    intro p hp h
    rw [AList.lookup_isSome, AList.mem_keys, AList.keys_singleton, List.mem_singleton] at h
    exact absurd h hp

theorem get?_root (t : Tree) : t.get? [] = some .dir := by
  obtain ⟨b, hb, rfl⟩ := t.exists_inner_root
  exact hb

@[simp] theorem get?_empty : empty.get? p = if p = [] then some .dir else none := by
  by_cases h : p = []
  · subst h
    rfl
  · rw [if_neg h, PathMap.get?, AList.lookup_eq_none, AList.mem_keys]
    simpa [empty] using h

/-- The parent of an entry is a directory. -/
theorem get?_parent (hp : p ≠ []) (h : t.get? p = some n) : t.get? p.dropLast = some .dir := by
  obtain ⟨b, hb, rfl⟩ := PathMap.exists_inner_parent hp h
  exact hb

/-- Everything above an entry is a directory. -/
theorem get?_of_isPrefix (hqp : q <+: p) (hne : q ≠ p) (h : t.get? p = some n) :
    t.get? q = some .dir := by
  obtain ⟨b, hb, rfl⟩ := PathMap.exists_inner_of_isPrefix hqp hne h
  exact hb

theorem ne_nil_of_file (h : t.get? p = some (.file c)) : p ≠ [] := by
  rintro rfl
  rw [get?_root] at h
  cases h

/-- Store a node below an existing directory, never a file over a directory. -/
def setNode (t : Tree) (p : Path) (n : Node) : Option Tree :=
  if h : p ≠ [] ∧ t.get? p.dropLast = some .dir ∧ (n = .dir ∨ t.get? p ≠ some .dir) then
    some (t.put p n h.1 ⟨.dir, h.2.1, rfl⟩
      (h.2.2.imp id fun hne _ hc hd => hne (hd ▸ hc)))
  else none

/-- Remove an entry other than the root that has nothing below it. -/
def dropNode (t : Tree) (p : Path) : Option Tree :=
  if h : p ≠ [] ∧ t.children p = [] then
    some (t.erase p h.1 fun a => by
      by_contra hne
      have : a ∈ t.children p := PathMap.mem_children.mpr (Option.isSome_iff_ne_none.mpr hne)
      rw [h.2] at this
      cases this)
  else none

/-- The layer with the given entries, parents first; an entry without a parent
directory is left out. -/
def ofEntries (entries : List (Path × Node)) : Tree :=
  entries.foldl (fun t e => (t.setNode e.1 e.2).getD t) empty

theorem setNode_eq_some :
    t.setNode p n = some t' →
      t'.get? = Function.update t.get? p (some n) ∧ t.get? p.dropLast = some .dir ∧ p ≠ [] := by
  unfold setNode
  split
  · rename_i h
    rintro ⟨⟩
    refine ⟨?_, h.2.1, h.1⟩
    funext q
    rw [PathMap.get?_put, Function.update_apply]
  · simp

theorem setNode_isSome (hp : p ≠ []) (hparent : t.get? p.dropLast = some .dir)
    (h : n = .dir ∨ t.get? p ≠ some .dir) : ∃ t', t.setNode p n = some t' :=
  ⟨_, dif_pos ⟨hp, hparent, h⟩⟩

theorem dropNode_eq_some :
    t.dropNode p = some t' →
      t'.get? = Function.update t.get? p none ∧ p ≠ [] ∧ ∀ a, t.get? (p ++ [a]) = none := by
  unfold dropNode
  split
  · rename_i h
    rintro ⟨⟩
    refine ⟨?_, h.1, fun a => ?_⟩
    · funext q
      rw [PathMap.get?_erase, Function.update_apply]
    · by_contra hne
      have : a ∈ t.children p := PathMap.mem_children.mpr (Option.isSome_iff_ne_none.mpr hne)
      rw [h.2] at this
      cases this
  · simp

theorem children_of_file (h : t.get? p = some (.file c)) : t.children p = [] := by
  refine PathMap.children_eq_nil.mpr fun a => ?_
  by_contra hne
  obtain ⟨b, hb⟩ := Option.ne_none_iff_exists'.mp hne
  have := get?_of_isPrefix (List.prefix_append p [a]) (by simp) hb
  rw [h] at this
  cases this

theorem dropNode_isSome (hp : p ≠ []) (h : ∀ a, t.get? (p ++ [a]) = none) :
    ∃ t', t.dropNode p = some t' :=
  ⟨_, dif_pos ⟨hp, PathMap.children_eq_nil.mpr h⟩⟩

/-! ### The trait's methods -/

/-- Finish with the new tree, or fail and keep the old one. -/
def commit {α : Type} (a : α) (t : Tree) : Option Tree → EStateM.Result VfsError Tree α
  | some t' => .ok a t'
  | none => .error .ioError t

theorem ends_commit {α : Type} {a : α} {o : Option Tree} {Q : α → Tree → Prop} {E : Tree → Prop}
    (hQ : ∀ t', o = some t' → Q a t') (hE : E t) : Ends (commit a t o) Q E := by
  cases o with
  | none => exact hE
  | some t' => exact hQ t' rfl

def readDir (t : Tree) (p : Path) : VfsResult (List Name) :=
  match t.get? p with
  | none => .error .fileNotFound
  | some (.file _) => .error .ioError
  | some .dir => .ok (t.children p)

def openFile (t : Tree) (p : Path) : VfsResult Reader :=
  match t.get? p with
  | none => .error .fileNotFound
  | some n => .ok n.reader

def metadata (t : Tree) (p : Path) : VfsResult VfsMetadata :=
  match t.get? p with
  | none => .error .fileNotFound
  | some n => .ok ⟨n.fileType, n.len⟩

def createDir (p : Path) : VfsM Tree Unit := fun t =>
  match t.get? p with
  | some .dir => .error .directoryExists t
  | some (.file _) => .error .fileExists t
  | none => commit () t (t.setNode p .dir)

def createFile (p : Path) : VfsM Tree Writer := fun t =>
  match t.get? p with
  | some .dir => .error .ioError t
  | _ => commit ⟨p, 0⟩ t (t.setNode p (.file []))

def appendFile (p : Path) : VfsM Tree Writer := fun t =>
  match t.get? p with
  | none => .error .fileNotFound t
  | some .dir => .error .ioError t
  | some (.file content) => .ok ⟨p, content.length⟩ t

def removeFile (p : Path) : VfsM Tree Unit := fun t =>
  match t.get? p with
  | none => .error .fileNotFound t
  | some .dir => .error .ioError t
  | some (.file _) => commit () t (t.dropNode p)

def removeDir (p : Path) : VfsM Tree Unit := fun t =>
  match t.get? p with
  | none => .error .fileNotFound t
  | some (.file _) => .error .ioError t
  | some .dir => commit () t (t.dropNode p)

def writeAll (w : Writer) (bytes : Bytes) : VfsM Tree Unit := fun t =>
  match t.get? w.path with
  | some (.file content) =>
    commit () t (t.setNode w.path (.file (splice content w.position bytes)))
  | _ => .error .ioError t

instance : FileSystem Tree where
  readDir := readDir
  openFile := openFile
  metadata := metadata
  existsAt t p := .ok (t.get? p).isSome
  createDir := createDir
  createFile := createFile
  appendFile := appendFile
  removeFile := removeFile
  removeDir := removeDir
  writeAll := writeAll

@[simp] theorem existsAt_eq (t : Tree) (p : Path) : existsAt t p = .ok (t.get? p).isSome := rfl

theorem readDir_eq_ok {l : List Name} :
    Rspacefs.readDir t p = .ok l ↔ t.get? p = some .dir ∧ l = t.children p := by
  change readDir t p = .ok l ↔ _
  unfold readDir
  cases t.get? p with
  | none => simp
  | some n => cases n <;> simp [eq_comm]

theorem readDir_dir (h : t.get? p = some .dir) : Rspacefs.readDir t p = .ok (t.children p) :=
  readDir_eq_ok.mpr ⟨h, rfl⟩

theorem readDir_file (h : t.get? p = some (.file c)) :
    Rspacefs.readDir t p = .error .ioError := by
  change readDir t p = _
  rw [readDir, h]

theorem metadata_of_some (h : t.get? p = some n) :
    Rspacefs.metadata t p = .ok ⟨n.fileType, n.len⟩ := by
  change metadata t p = _
  rw [metadata, h]

theorem openFile_of_some (h : t.get? p = some n) : Rspacefs.openFile t p = .ok n.reader := by
  change openFile t p = _
  rw [openFile, h]

/-! ### What a changing call leaves

Each lemma starts from a fixed tree `t`, gives what the call left when it
returned, and says that a failing call left `t`. -/

theorem createDir_spec (t : Tree) (p : Path) :
    Triple (· = t) (FileSystem.createDir p : VfsM Tree Unit)
      (fun _ t' => t.get? p = none ∧ t.get? p.dropLast = some .dir ∧ p ≠ [] ∧
        t'.get? = Function.update t.get? p (some .dir)) (· = t) := by
  rintro t rfl
  change Ends (createDir p t) _ _
  unfold createDir
  cases hp : t.get? p with
  | some n => cases n <;> rfl
  | none =>
    refine ends_commit (fun t' hset => ?_) rfl
    obtain ⟨hget, hparent, hne⟩ := setNode_eq_some hset
    exact ⟨rfl, hparent, hne, hget⟩

theorem createFile_spec (t : Tree) (p : Path) :
    Triple (· = t) (FileSystem.createFile p : VfsM Tree Writer)
      (fun w t' => w = ⟨p, 0⟩ ∧ t.get? p ≠ some .dir ∧ t.get? p.dropLast = some .dir ∧ p ≠ [] ∧
        t'.get? = Function.update t.get? p (some (.file []))) (· = t) := by
  rintro t rfl
  change Ends (createFile p t) _ _
  unfold createFile
  split
  · rfl
  · rename_i hdir
    refine ends_commit (fun t' hset => ?_) rfl
    obtain ⟨hget, hparent, hne⟩ := setNode_eq_some hset
    exact ⟨rfl, hdir, hparent, hne, hget⟩

theorem appendFile_spec (t : Tree) (p : Path) :
    Triple (· = t) (FileSystem.appendFile p : VfsM Tree Writer)
      (fun w t' => t' = t ∧ ∃ c, t.get? p = some (.file c) ∧ w = ⟨p, c.length⟩) (· = t) := by
  rintro t rfl
  change Ends (appendFile p t) _ _
  unfold appendFile
  cases hp : t.get? p with
  | none => rfl
  | some n =>
    cases n with
    | dir => rfl
    | file c => exact ⟨rfl, c, rfl, rfl⟩

theorem removeFile_spec (t : Tree) (p : Path) :
    Triple (· = t) (FileSystem.removeFile p : VfsM Tree Unit)
      (fun _ t' => (∃ c, t.get? p = some (.file c)) ∧
        t'.get? = Function.update t.get? p none) (· = t) := by
  rintro t rfl
  change Ends (removeFile p t) _ _
  unfold removeFile
  cases hp : t.get? p with
  | none => rfl
  | some n =>
    cases n with
    | dir => rfl
    | file c => exact ends_commit (fun t' hdrop => ⟨⟨c, rfl⟩, (dropNode_eq_some hdrop).1⟩) rfl

theorem removeDir_spec (t : Tree) (p : Path) :
    Triple (· = t) (FileSystem.removeDir p : VfsM Tree Unit)
      (fun _ t' => t.get? p = some .dir ∧ p ≠ [] ∧ (∀ a, t.get? (p ++ [a]) = none) ∧
        t'.get? = Function.update t.get? p none) (· = t) := by
  rintro t rfl
  change Ends (removeDir p t) _ _
  unfold removeDir
  cases hp : t.get? p with
  | none => rfl
  | some n =>
    cases n with
    | file c => rfl
    | dir =>
      refine ends_commit (fun t' hdrop => ?_) rfl
      obtain ⟨hget, hne, hleaf⟩ := dropNode_eq_some hdrop
      exact ⟨rfl, hne, hleaf, hget⟩

theorem writeAll_spec (t : Tree) (w : Writer) (bytes : Bytes) :
    Triple (· = t) (FileSystem.writeAll w bytes : VfsM Tree Unit)
      (fun _ t' => ∃ c, t.get? w.path = some (.file c) ∧
        t'.get? = Function.update t.get? w.path (some (.file (splice c w.position bytes))))
      (· = t) := by
  rintro t rfl
  change Ends (writeAll w bytes t) _ _
  unfold writeAll
  cases hp : t.get? w.path with
  | none => rfl
  | some n =>
    cases n with
    | dir => rfl
    | file c => exact ends_commit (fun t' hset => ⟨c, rfl, (setNode_eq_some hset).1⟩) rfl

end Tree

end Rspacefs
