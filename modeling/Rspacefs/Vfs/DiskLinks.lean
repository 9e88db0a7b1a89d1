import Rspacefs.Lib.Links
import Rspacefs.Vfs.Disk
import Rspacefs.Vfs.Local

/-!
# A layer directory with symbolic links

The host follows links. A directory on disk is one for the adapter too: reading, listing and
`File::create` go through links, `symlink_metadata` and the calls that remove an entry stop at
the last component, and more than 40 links on the way are an error. Absolute targets start
at the root of the tree; a link in it that is to leave the tree is best thought of as dangling.

Whatever the links are, only `symlink` makes one.

## Main definitions

* `DiskTree.place` — where the host finds a path
* `instance : PhysicalFS DiskTree`
* `StraightPhysicalFS` — the law that only `symlink` makes a link

## Main results

* `DiskTree.straight_iff` — a path is straight if no entry along it is a link
* `instance : StraightPhysicalFS DiskTree`
-/

namespace Rspacefs

open Lib

/-- No call but `symlink` makes a link, whatever it names and wherever links lead it. -/
class StraightPhysicalFS (σ : Type) [PhysicalFS σ] : Prop where
  kept : ∀ x y : Path, KeptAt (fun u : σ => Straight u y) x

/-- A component of a link's target. -/
def targetStep (n : Name) : PathStep Name :=
  if n = [] ∨ n = ['.'] then .stay
  else if n = ['.', '.'] then .up
  else .down n

namespace DiskNode

/-- What the host does on its way at an entry, or where there is none. -/
def turn : Option DiskNode → Turn Name
  | some .dir => .enter
  | some (.link target) => .jump (target.head? = some '/') ((target.splitOn '/').map targetStep)
  | _ => .stop

/-- `symlink_metadata`; what is neither a directory nor a link is treated as a file. -/
def linkMetadata : DiskNode → LinkMetadata
  | .file content => ⟨.regularFile, (content.getD []).length⟩
  | .dir => ⟨.directory, 0⟩
  | .link target => ⟨.symlink, target.length⟩
  | .special => ⟨.regularFile, 0⟩

def fileType : DiskNode → VfsFileType
  | .dir => .directory
  | _ => .file

/-- A directory can be opened, and then fails to be read. -/
def reader : DiskNode → Reader
  | .file (some content) => ⟨.ok content⟩
  | _ => ⟨.error .ioError⟩

end DiskNode

namespace DiskTree

variable {t t' : DiskTree} {p q x y : Path} {follow : Bool}

/-- Where the host finds a path, or could create it. -/
def place (t : DiskTree) (follow : Bool) (p : Path) : Option Path :=
  walkLinks (fun q => DiskNode.turn (t.get? q)) follow 41 [] (p.map .down)

/-- The entry at a path; its last component is followed or not. -/
def nodeAt (t : DiskTree) (follow : Bool) (p : Path) : Option DiskNode :=
  (t.place follow p).bind t.get?

/-- Finish with the new tree, or fail and keep the old one. -/
def commit {α : Type} (a : α) (t : DiskTree) : Option DiskTree → EStateM.Result VfsError DiskTree α
  | some t' => .ok a t'
  | none => .error .ioError t

/-- A call on the place where the host finds a path. -/
def atPlace {α : Type} (follow : Bool) (p : Path)
    (act : DiskTree → Path → EStateM.Result VfsError DiskTree α) : VfsM DiskTree α := fun t =>
  match t.place follow p with
  | none => .error .fileNotFound t
  | some r => act t r

def readDir (t : DiskTree) (p : Path) : VfsResult (List Name) :=
  match t.place true p with
  | none => .error .fileNotFound
  | some r => match t.get? r with
    | none => .error .fileNotFound
    | some .dir => .ok (t.children r)
    | some _ => .error .ioError

def openFile (t : DiskTree) (p : Path) : VfsResult Reader :=
  match t.nodeAt true p with
  | none => .error .fileNotFound
  | some (.file none) => .error .ioError
  | some n => .ok n.reader

def metadata (t : DiskTree) (p : Path) : VfsResult VfsMetadata :=
  match t.nodeAt true p with
  | none => .error .fileNotFound
  | some n => .ok ⟨n.fileType, n.linkMetadata.len⟩

def createDir (p : Path) : VfsM DiskTree Unit :=
  atPlace false p fun t r => match t.get? r with
    | some .dir => .error .directoryExists t
    | some _ => .error .fileExists t
    | none => commit () t (t.tryPut r .dir)

/-- `File::create`: a link is followed, also to where there is nothing yet. -/
def createFile (p : Path) : VfsM DiskTree Writer :=
  atPlace true p fun t r => match t.get? r with
    | none | some (.file (some _)) => commit ⟨p, 0⟩ t (t.tryPut r (.file (some [])))
    | some _ => .error .ioError t

def appendFile (p : Path) : VfsM DiskTree Writer :=
  atPlace true p fun t r => match t.get? r with
    | none => .error .fileNotFound t
    | some (.file (some content)) => .ok ⟨p, content.length⟩ t
    | some _ => .error .ioError t

/-- `unlink`: a link is removed, not what it leads to. -/
def removeFile (p : Path) : VfsM DiskTree Unit :=
  atPlace false p fun t r => match t.get? r with
    | none => .error .fileNotFound t
    | some .dir => .error .ioError t
    | some _ => commit () t (t.tryErase r)

/-- `rmdir`: a link is no directory. -/
def removeDir (p : Path) : VfsM DiskTree Unit :=
  atPlace false p fun t r => match t.get? r with
    | none => .error .fileNotFound t
    | some .dir => commit () t (t.tryErase r)
    | some _ => .error .ioError t

def writeAll (w : Writer) (bytes : Bytes) : VfsM DiskTree Unit :=
  atPlace true w.path fun t r => match t.get? r with
    | some (.file (some content)) =>
      commit () t (t.tryPut r (.file (some (splice content w.position bytes))))
    | _ => .error .ioError t

def symlink (target : Target) (p : Path) : VfsM DiskTree Unit :=
  atPlace false p fun t r => match t.get? r with
    | none => commit () t (t.tryPut r (.link target))
    | some _ => .error .fileExists t

def readLink (t : DiskTree) (p : Path) : Option Target :=
  match t.nodeAt false p with
  | some (.link target) => some target
  | _ => none

/-- A directory written out, parents first; what has no parent directory is left out. -/
def ofEntries (entries : List (Path × DiskNode)) : DiskTree :=
  entries.foldl (fun t e => (t.tryPut e.1 e.2).getD t) DiskTree.empty

instance : FileSystem DiskTree where
  readDir := readDir
  openFile := openFile
  metadata := metadata
  existsAt t p := .ok (t.nodeAt true p).isSome
  createDir := createDir
  createFile := createFile
  appendFile := appendFile
  removeFile := removeFile
  removeDir := removeDir
  writeAll := writeAll

instance : PhysicalFS DiskTree where
  symlinkMetadata t p := (t.nodeAt false p).map DiskNode.linkMetadata
  readLink := readLink
  fileContent t p := do (← FileSystem.openFile t p).readToEnd
  symlink := symlink

/-! ### Straight paths -/

theorem symlinkMetadata_eq (t : DiskTree) (p : Path) :
    symlinkMetadata t p = (t.nodeAt false p).map DiskNode.linkMetadata := rfl

/-- No entry along the path is a link. -/
def NoLinkAlong (t : DiskTree) (p : Path) : Prop :=
  ∀ q, q <+: p → q ≠ [] → ∀ target, t.get? q ≠ some (.link target)

theorem NoLinkAlong.of_isPrefix (h : NoLinkAlong t p) (hqp : q <+: p) : NoLinkAlong t q :=
  fun r hr => h r (hr.trans hqp)

theorem exists_link_of_turn {n : Option DiskNode} {fromRoot : Bool} {steps : List (PathStep Name)}
    (h : DiskNode.turn n = .jump fromRoot steps) : ∃ target, n = some (.link target) := by
  unfold DiskNode.turn at h
  split at h
  · cases h
  · exact ⟨_, rfl⟩
  · cases h

theorem ne_dir_of_turn {n : Option DiskNode} (h : DiskNode.turn n = .stop) : n ≠ some .dir := by
  intro hdir
  rw [hdir] at h
  cases h

/-- Below what is no directory there is nothing. -/
theorem get?_eq_none_of_ne_dir (hqp : q <+: p) (hne : q ≠ p) (h : t.get? q ≠ some .dir) :
    t.get? p = none := by
  by_contra hsome
  obtain ⟨n, hn⟩ := Option.ne_none_iff_exists'.mp hsome
  obtain ⟨b, hb, rfl⟩ := PathMap.exists_inner_of_isPrefix hqp hne hn
  exact h hb

/-- A path whose directories are no links is found where it says. -/
theorem nodeAt_of_noLinkAlong (h : NoLinkAlong t p.dropLast) : t.nodeAt false p = t.get? p := by
  have hnojump : NoJumpOn (fun q => DiskNode.turn (t.get? q)) [] p := by
    intro r hr hne hproper fromRoot steps hturn
    obtain ⟨target, hlink⟩ := exists_link_of_turn hturn
    exact h r (prefix_dropLast_of_ne hr hproper) hne target hlink
  unfold nodeAt place
  rcases walkLinks_of_noJumpOn 40 hnojump with hfound | ⟨hnone, r, hr, hne, hstop⟩
  · rw [hfound]
    rfl
  · rw [hnone]
    exact (get?_eq_none_of_ne_dir hr hne (ne_dir_of_turn hstop)).symm

/-- Above an entry there are directories. -/
theorem get?_above (hqp : q <+: p) (hne : q ≠ p) (h : (t.get? p).isSome) : t.get? q = some .dir := by
  obtain ⟨n, hn⟩ := Option.isSome_iff_exists.mp h
  obtain ⟨b, hb, rfl⟩ := PathMap.exists_inner_of_isPrefix hqp hne hn
  exact hb

theorem get?_dropLast (hne : p ≠ []) (h : (t.get? p).isSome) : t.get? p.dropLast = some .dir := by
  refine get?_above (List.dropLast_prefix p) (fun heq => ?_) h
  have hlen := congrArg List.length heq
  have := List.length_pos_of_ne_nil hne
  rw [List.length_dropLast] at hlen
  omega

/-- Down to a directory no entry is a link. -/
theorem noLinkAlong_of_dir (h : t.get? p = some .dir) : NoLinkAlong t p := by
  intro q hq _ target hlink
  by_cases hqp : q = p
  · rw [hqp, h] at hlink
    cases hlink
  · rw [get?_above hq hqp (by rw [h]; rfl)] at hlink
    cases hlink

/-- In a directory a path is found where it says. -/
theorem place_of_parent (h : t.get? p.dropLast = some .dir) : t.place false p = some p := by
  have hnojump : NoJumpOn (fun q => DiskNode.turn (t.get? q)) [] p := by
    intro r hr hne hproper fromRoot steps hturn
    obtain ⟨target, hlink⟩ := exists_link_of_turn hturn
    exact noLinkAlong_of_dir h r (prefix_dropLast_of_ne hr hproper) hne target hlink
  refine (walkLinks_of_noJumpOn 40 hnojump).resolve_right ?_
  rintro ⟨-, r, hr, hproper, hstop⟩
  apply ne_dir_of_turn hstop
  by_cases hlast : r = p.dropLast
  · exact hlast ▸ h
  · exact get?_above (prefix_dropLast_of_ne hr hproper) hlast (by rw [h]; rfl)

/-- Where no entry along the path is a link, it does not matter if links are followed. -/
theorem place_of_straight (h : NoLinkAlong t p) : t.place follow p = t.place false p := by
  cases follow with
  | false => rfl
  | true =>
    rw [place, place, walkLinks, walkLinks]
    refine walkSteps_followed ?_
    intro r hr hne fromRoot steps hturn
    obtain ⟨target, hlink⟩ := exists_link_of_turn hturn
    exact h r hr hne target hlink

theorem nodeAt_of_straight (h : NoLinkAlong t p) : t.nodeAt follow p = t.get? p := by
  rw [← nodeAt_of_noLinkAlong (h.of_isPrefix (List.dropLast_prefix p)), nodeAt, nodeAt,
    place_of_straight h]

theorem kindAt_eq_symlink_iff (h : NoLinkAlong t p.dropLast) :
    kindAt t p = some .symlink ↔ ∃ target, t.get? p = some (.link target) := by
  rw [kindAt, symlinkMetadata_eq, nodeAt_of_noLinkAlong h]
  cases t.get? p with
  | none => simp
  | some n => cases n <;> simp [DiskNode.linkMetadata]

theorem noLinkAlong_of_dropLast (h : NoLinkAlong t p.dropLast)
    (hp : ∀ target, t.get? p ≠ some (.link target)) : NoLinkAlong t p := by
  intro q hq hne
  by_cases hqp : q = p
  · exact hqp ▸ hp
  · exact h q (prefix_dropLast_of_ne hq hqp) hne

/-- A path is straight if no entry along it is a link. -/
theorem straight_iff : Straight t p ↔ NoLinkAlong t p := by
  constructor
  · intro h
    -- from the root down: what is no link above makes the host look at the entry itself
    induction p using List.reverseRecOn with
    | nil =>
      intro q hq hne
      exact absurd (List.prefix_nil.mp hq) hne
    | append_singleton d n ih =>
      have hdir : NoLinkAlong t (d ++ [n]).dropLast := by
        rw [List.dropLast_concat]
        exact ih (h.of_isPrefix (List.prefix_append d [n]))
      apply noLinkAlong_of_dropLast hdir
      intro target hlink
      have hne : d ++ [n] ≠ [] := by simp
      exact h _ (List.prefix_refl _) hne ((kindAt_eq_symlink_iff hdir).mpr ⟨target, hlink⟩)
  · intro h q hq hne hkind
    have hdir : NoLinkAlong t q.dropLast := h.of_isPrefix ((List.dropLast_prefix q).trans hq)
    obtain ⟨target, hlink⟩ := (kindAt_eq_symlink_iff hdir).mp hkind
    exact h q hq hne target hlink

/-- What changes one entry, not to a link, makes no straight path crooked. -/
theorem straight_update {n : Option DiskNode} (h : t'.get? = Function.update t.get? x n)
    (hn : ∀ target, n ≠ some (.link target)) (hy : Straight t y) : Straight t' y := by
  rw [straight_iff] at hy ⊢
  intro q hq hne target
  rw [h]
  by_cases hqx : q = x
  · rw [hqx, Function.update_self]
    exact hn target
  · rw [Function.update_of_ne hqx]
    exact hy q hq hne target

/-! ### What a changing call leaves -/

theorem ends_commit {α : Type} {a : α} {o : Option DiskTree} {Q : α → DiskTree → Prop}
    {E : DiskTree → Prop} (hQ : ∀ t', o = some t' → Q a t') (hE : E t) :
    Ends (commit a t o) Q E := by
  cases o with
  | none => exact hE
  | some t' => exact hQ t' rfl

theorem atPlace_spec {α : Type} {act : DiskTree → Path → EStateM.Result VfsError DiskTree α}
    {Q : α → DiskTree → Prop}
    (h : ∀ r, t.place follow p = some r → Ends (act t r) Q (· = t)) :
    Triple (· = t) (atPlace follow p act) Q (· = t) := by
  rintro t rfl
  change Ends (atPlace follow p act t) Q _
  unfold atPlace
  cases hplace : t.place follow p with
  | none => rfl
  | some r => exact h r hplace

/-- From `t` to `t'` one entry changed, and it did not become a link. -/
def Changed (t t' : DiskTree) : Prop :=
  ∃ r n, t'.get? = Function.update t.get? r n ∧ ∀ target, n ≠ some (.link target)

theorem Changed.straight (h : Changed t t') (hy : Straight t y) : Straight t' y := by
  obtain ⟨r, n, hget, hn⟩ := h
  exact straight_update hget hn hy

theorem changed_tryPut {r : Path} {n : DiskNode} (h : t.tryPut r n = some t')
    (hn : ∀ target, n ≠ .link target) : Changed t t' := by
  refine ⟨r, some n, PathMap.tryPut_eq_some h, ?_⟩
  intro target heq
  exact hn target (Option.some.inj heq)

theorem changed_tryErase {r : Path} (h : t.tryErase r = some t') : Changed t t' :=
  ⟨r, none, PathMap.tryErase_eq_some h, fun _ heq => nomatch heq⟩

theorem createDir_spec (t : DiskTree) (p : Path) :
    Triple (· = t) (FileSystem.createDir p : VfsM DiskTree Unit) (fun _ t' => Changed t t')
      (· = t) := by
  apply atPlace_spec
  intro r _
  cases t.get? r with
  | none => exact ends_commit (fun t' hput => changed_tryPut hput (by simp)) rfl
  | some n => cases n <;> rfl

theorem removeFile_spec (t : DiskTree) (p : Path) :
    Triple (· = t) (FileSystem.removeFile p : VfsM DiskTree Unit) (fun _ t' => Changed t t')
      (· = t) := by
  apply atPlace_spec
  intro r _
  cases t.get? r with
  | none => rfl
  | some n =>
    cases n with
    | dir => rfl
    | file content => exact ends_commit (fun t' herase => changed_tryErase herase) rfl
    | link target => exact ends_commit (fun t' herase => changed_tryErase herase) rfl
    | special => exact ends_commit (fun t' herase => changed_tryErase herase) rfl

theorem removeDir_spec (t : DiskTree) (p : Path) :
    Triple (· = t) (FileSystem.removeDir p : VfsM DiskTree Unit) (fun _ t' => Changed t t')
      (· = t) := by
  apply atPlace_spec
  intro r _
  cases t.get? r with
  | none => rfl
  | some n =>
    cases n with
    | dir => exact ends_commit (fun t' herase => changed_tryErase herase) rfl
    | _ => rfl

theorem writeAll_spec (t : DiskTree) (w : Writer) (bytes : Bytes) :
    Triple (· = t) (FileSystem.writeAll w bytes : VfsM DiskTree Unit) (fun _ t' => Changed t t')
      (· = t) := by
  apply atPlace_spec
  intro r _
  split
  · exact ends_commit (fun t' hput => changed_tryPut hput (by simp)) rfl
  · rfl

/-- What changes an entry where a walk stops, and goes on stopping there, changes no walk. -/
theorem place_of_stop {r : Path} {n : Option DiskNode} (h : t'.get? = Function.update t.get? r n)
    (hstop : DiskNode.turn (t.get? r) = .stop) (hn : DiskNode.turn n = .stop) :
    t'.place follow p = t.place follow p := by
  have hturn : ∀ q, DiskNode.turn (t'.get? q) = DiskNode.turn (t.get? q) := by
    intro q
    rw [h]
    by_cases hqr : q = r
    · rw [hqr, Function.update_self, hn, hstop]
    · rw [Function.update_of_ne hqr]
  rw [place, place, walkLinks_congr hturn]

/-- Without following its last component, a path is found at the same place or at a link. -/
theorem place_of_followed {r : Path} (h : t.place true p = some r) :
    t.place false p = some r ∨
      ∃ l target, t.place false p = some l ∧ t.get? l = some (.link target) := by
  apply (walkLinks_of_followed h).imp_right
  rintro ⟨l, fromRoot, steps, hfound, hjump⟩
  obtain ⟨target, hlink⟩ := exists_link_of_turn hjump
  exact ⟨l, target, hfound, hlink⟩

/-- What `File::create` made has an entry at its path, be it the link it was made through. -/
theorem isSome_nodeAt_of_created {r : Path} {n : DiskNode} (hplace : t.place true p = some r)
    (h : t'.get? = Function.update t.get? r (some n))
    (hstop : DiskNode.turn (t.get? r) = .stop) (hn : DiskNode.turn (some n) = .stop) :
    (t'.nodeAt false p).isSome := by
  rw [nodeAt, place_of_stop h hstop hn]
  rcases place_of_followed hplace with hfound | ⟨l, target, hfound, hlink⟩
  · rw [hfound, Option.bind_some, h, Function.update_self]
    rfl
  · have hlr : l ≠ r := by
      intro heq
      rw [← heq, hlink] at hstop
      cases hstop
    rw [hfound, Option.bind_some, h, Function.update_of_ne hlr, hlink]
    rfl

theorem createFile_spec (t : DiskTree) (p : Path) :
    Triple (· = t) (FileSystem.createFile p : VfsM DiskTree Writer)
      (fun w t' => w = ⟨p, 0⟩ ∧ (t'.nodeAt false p).isSome ∧ Changed t t') (· = t) := by
  apply atPlace_spec
  intro r hplace
  have hput : DiskNode.turn (t.get? r) = .stop → ∀ t' : DiskTree,
      t.tryPut r (.file (some [])) = some t' → (t'.nodeAt false p).isSome ∧ Changed t t' := by
    intro hstop t' h
    exact ⟨isSome_nodeAt_of_created hplace (PathMap.tryPut_eq_some h) hstop rfl,
      changed_tryPut h (by simp)⟩
  split
  · rename_i hnone
    exact ends_commit (fun t' h => ⟨rfl, hput (by rw [hnone]; rfl) t' h⟩) rfl
  · rename_i hfile
    exact ends_commit (fun t' h => ⟨rfl, hput (by rw [hfile]; rfl) t' h⟩) rfl
  · rfl

/-! ### What a call does -/

@[simp] theorem existsAt_nodeAt (t : DiskTree) (p : Path) :
    existsAt t p = .ok (t.nodeAt true p).isSome := rfl

/-- Below what is no directory there are no entries. -/
theorem children_of_ne_dir (h : t.get? p ≠ some .dir) : t.children p = [] :=
  PathMap.children_eq_nil.mpr fun a =>
    get?_eq_none_of_ne_dir (List.prefix_append p [a]) (by simp) h

/-- A file or a link is removed. -/
theorem run_removeFile {n : DiskNode} (h : t.get? p = some n) (hn : n ≠ .dir) :
    ∃ t', (FileSystem.removeFile p : VfsM DiskTree Unit).run t = .ok () t' ∧
      t'.get? = Function.update t.get? p none := by
  have hne : p ≠ [] := by
    rintro rfl
    exact hn (Option.some.inj (h.symm.trans t.get?_root))
  have hdir : t.get? p ≠ some .dir := by
    rw [h]
    exact fun heq => hn (Option.some.inj heq)
  obtain ⟨t', ht'⟩ : ∃ t', t.tryErase p = some t' := ⟨_, dif_pos ⟨hne, children_of_ne_dir hdir⟩⟩
  refine ⟨t', ?_, PathMap.tryErase_eq_some ht'⟩
  have hplace := place_of_parent (get?_dropLast hne (by rw [h]; rfl))
  change removeFile p t = _
  rw [removeFile, atPlace, hplace]
  dsimp only
  rw [h, ht']
  cases n with
  | dir => exact absurd rfl hn
  | _ => rfl

/-- Where the host finds no entry, or a file that can be read, `VfsPath::create_file` puts an
empty file. -/
theorem run_createFile {r : Path} (hne : r ≠ []) (hparent : t.get? p.dropLast = some .dir)
    (hplace : t.place true p = some r) (hdir : t.get? r.dropLast = some .dir)
    (hr : t.get? r = none ∨ ∃ c, t.get? r = some (.file (some c))) :
    ∃ t', (VfsPath.createFile p : VfsM DiskTree Writer).run t = .ok ⟨p, 0⟩ t' ∧
      t'.get? = Function.update t.get? r (some (.file (some []))) := by
  have hnode : t.nodeAt true p.dropLast = some .dir :=
    (nodeAt_of_straight (noLinkAlong_of_dir hparent)).trans hparent
  have hasked : VfsPath.getParent "create file" p t = .ok () := by
    have hexists : existsAt t p.dropLast = .ok true := by
      rw [existsAt_nodeAt, hnode]
      rfl
    have hmeta : FileSystem.metadata t p.dropLast = .ok ⟨.directory, 0⟩ := by
      change DiskTree.metadata t p.dropLast = _
      rw [metadata, hnode]
      rfl
    simp [VfsPath.getParent, hexists, hmeta, bind, Except.bind, pure, Except.pure]
  -- the entry is put where the host ends up, which is no directory
  obtain ⟨t', ht'⟩ : ∃ t', t.tryPut r (.file (some [])) = some t' := by
    refine ⟨_, dif_pos ⟨hne, ⟨.dir, hdir, rfl⟩, Or.inr ?_⟩⟩
    rintro c hc rfl
    rcases hr with hnone | ⟨c, hfile⟩
    · rw [hnone] at hc
      cases hc
    · rw [hfile] at hc
      cases hc
  refine ⟨t', ?_, PathMap.tryPut_eq_some ht'⟩
  refine run_bind_eq_ok.mpr ⟨(), t, run_ask_eq_ok.mpr ⟨hasked, rfl⟩, ?_⟩
  change createFile p t = _
  rw [createFile, atPlace, hplace]
  dsimp only
  rcases hr with hnone | ⟨c, hfile⟩
  · rw [hnone, ht']
    rfl
  · rw [hfile, ht']
    rfl

/-- Writing into a file that is there. -/
theorem run_writeAll {r : Path} {i : Nat} {c : Bytes} (hplace : t.place true p = some r)
    (hr : t.get? r = some (.file (some c))) (bytes : Bytes) :
    ∃ t', (FileSystem.writeAll ⟨p, i⟩ bytes : VfsM DiskTree Unit).run t = .ok () t' ∧
      t'.get? = Function.update t.get? r (some (.file (some (splice c i bytes)))) := by
  have hne : r ≠ [] := by
    rintro rfl
    cases hr.symm.trans t.get?_root
  obtain ⟨t', ht'⟩ : ∃ t', t.tryPut r (.file (some (splice c i bytes))) = some t' := by
    refine ⟨_, dif_pos ⟨hne, ⟨.dir, get?_dropLast hne (by rw [hr]; rfl), rfl⟩, Or.inr ?_⟩⟩
    rintro b hb rfl
    rw [hr] at hb
    cases hb
  refine ⟨t', ?_, PathMap.tryPut_eq_some ht'⟩
  change writeAll ⟨p, i⟩ bytes t = _
  rw [writeAll, atPlace, hplace]
  dsimp only
  rw [hr]
  dsimp only
  rw [ht']
  rfl

/-- A call that changes one entry keeps what is straight. -/
theorem keeps_straight {x : VfsM DiskTree Unit}
    (h : ∀ t, Triple (· = t) x (fun _ t' => Changed t t') (· = t)) :
    Triple (fun t => Straight t y) x (fun _ t => Straight t y) (fun t => Straight t y) :=
  Triple.of_forall fun t hy => (h t).weaken (fun _ h => h) (fun _ _ hnew => hnew.straight hy)
    (by rintro _ rfl; exact hy)

instance : StraightPhysicalFS DiskTree where
  kept x y := {
    createDir := keeps_straight fun t => createDir_spec t x
    removeFile := keeps_straight fun t => removeFile_spec t x
    removeDir := keeps_straight fun t => removeDir_spec t x
    writeAll := fun i bytes => keeps_straight fun t => writeAll_spec t ⟨x, i⟩ bytes
    createFile := by
      apply Triple.of_forall
      intro t hy
      apply (createFile_spec t x).weaken (fun _ h => h) _ (by rintro _ rfl; exact hy)
      rintro w t' ⟨hw, hsome, hchanged⟩
      exact ⟨hw, by rwa [symlinkMetadata_eq, Option.isSome_map], hchanged.straight hy⟩ }

end DiskTree

end Rspacefs
