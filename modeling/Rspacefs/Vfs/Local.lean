import Rspacefs.Core.Effects
import Rspacefs.Vfs.Physical

/-!
# What a call on a directory leaves alone

A call of the host that names `x` changes the entry at `x`. Through symbolic links
it can change other paths too: where no link stands at or above `x`, it does not.

`LocalPhysicalFS` states this of the calls that change a directory, together with
what each of them leaves at `x` when it succeeds. It holds of a directory to which
nothing else writes and in which no file has two names.

## Main definitions

* `Straight` — no link at a path or above it
* `Steady` — only the entry at one path changed
* `LocalPhysicalFS` — the laws
* `Kept` — some paths stay free of links while others stay as they were

## Main results

* `Steady.straight` — a call at a straight path makes no straight path crooked
* `keptName_kept`, `keptAt_kept` — calls at the free paths keep `Kept`
-/

namespace Rspacefs

open Lib

variable {σ : Type} [PhysicalFS σ]

/-- The kind of the entry at `p`; the last component is not followed. -/
def kindAt (u : σ) (p : Path) : Option FileKind := (symlinkMetadata u p).map (·.kind)

@[simp] theorem isSome_kindAt (u : σ) (p : Path) :
    (kindAt u p).isSome = (symlinkMetadata u p).isSome := by
  rw [kindAt, Option.isSome_map]

/-- No link at `p` or above it. -/
def Straight (u : σ) (p : Path) : Prop :=
  ∀ q, q <+: p → q ≠ [] → kindAt u q ≠ some .symlink

theorem Straight.of_isPrefix {u : σ} {p q : Path} (h : Straight u p) (hqp : q <+: p) :
    Straight u q :=
  fun r hr => h r (hr.trans hqp)

/-- `u'` has at `y` what `u` has. -/
def SameAt (u u' : σ) (y : Path) : Prop :=
  kindAt u' y = kindAt u y ∧ contentAt u' y = contentAt u y

/-- From `u` to `u'` only the entry at `x` changed, and it did not become a link. -/
structure Steady (x : Path) (u u' : σ) : Prop where
  others : ∀ y, Straight u y → y ≠ x → SameAt u u' y
  noLink : kindAt u x ≠ some .symlink → kindAt u' x ≠ some .symlink

/-- A call at a straight path makes no straight path crooked. -/
theorem Steady.straight {u u' : σ} {x y : Path} (h : Steady x u u') (hy : Straight u y) :
    Straight u' y := by
  intro q hq hne
  by_cases hqx : q = x
  · subst hqx
    exact h.noLink (hy q hq hne)
  · rw [(h.others q (hy.of_isPrefix hq) hqx).1]
    exact hy q hq hne

/-- What the calls that change a directory change. -/
class LocalPhysicalFS (σ : Type) [PhysicalFS σ] : Prop extends LawfulPhysicalFS σ where
  existsAt_of_straight : ∀ (u : σ) p, Straight u p → existsAt u p = .ok (kindAt u p).isSome
  /-- `create_dir`: a link at `p` makes it fail. -/
  createDir : ∀ (u : σ) p, Straight u p.dropLast →
    Triple (· = u) (FileSystem.createDir p : VfsM σ Unit) (fun _ => Steady p u) (Steady p u)
  /-- `File::create`. -/
  createFile : ∀ (u : σ) p, Straight u p → Triple (· = u) (FileSystem.createFile p : VfsM σ Writer)
    (fun w u' => Steady p u u' ∧ w = ⟨p, 0⟩ ∧ kindAt u' p = some .regularFile ∧
      contentAt u' p = .ok []) (Steady p u)
  /-- `write_all` on what `File::create` returned. -/
  writeAll : ∀ (u : σ) p i bytes, Straight u p →
    Triple (· = u) (FileSystem.writeAll ⟨p, i⟩ bytes : VfsM σ Unit)
    (fun _ u' => Steady p u u' ∧ kindAt u' p = kindAt u p ∧
      ∀ c, contentAt u p = .ok c → contentAt u' p = .ok (splice c i bytes)) (Steady p u)
  /-- `remove_file`: it takes a link at `p` for what it is. -/
  removeFile : ∀ (u : σ) p, Straight u p.dropLast →
    Triple (· = u) (FileSystem.removeFile p : VfsM σ Unit)
    (fun _ u' => Steady p u u' ∧ kindAt u' p = none) (Steady p u)
  /-- `remove_dir`. -/
  removeDir : ∀ (u : σ) p, Straight u p.dropLast →
    Triple (· = u) (FileSystem.removeDir p : VfsM σ Unit)
    (fun _ u' => Steady p u u' ∧ kindAt u' p = none) (Steady p u)
  /-- `symlink`: a new link changes what lies below it. -/
  symlink : ∀ (u : σ) t p, Straight u p.dropLast → Triple (· = u) (PhysicalFS.symlink t p : VfsM σ Unit)
    (fun _ u' => ∀ y, Straight u y → ¬ p <+: y → SameAt u u' y)
    (fun u' => ∀ y, Straight u y → ¬ p <+: y → SameAt u u' y)

/-! ### Keeping paths as they were -/

/-- The paths in `Free` may be written at, and none of them goes through a link; what
stands at the paths in `Held` is what `u₀` has there. -/
structure Kept (Free Held : Path → Prop) (u₀ u : σ) : Prop where
  free : ∀ x, Free x → Straight u x
  held : ∀ z, Held z → Straight u z ∧ SameAt u₀ u z

/-- A condition on the directory that survives the calls which take `x` as a name and
do not follow a link there. -/
structure KeptName (J : σ → Prop) (x : Path) : Prop where
  createDir : Triple J (FileSystem.createDir x) (fun _ => J) J
  removeFile : Triple J (FileSystem.removeFile x) (fun _ => J) J
  removeDir : Triple J (FileSystem.removeDir x) (fun _ => J) J

/-- A condition that survives the calls which write a file at `x`, too. -/
structure KeptAt (J : σ → Prop) (x : Path) : Prop extends KeptName J x where
  createFile : Triple J (FileSystem.createFile x)
    (fun w u => w = ⟨x, 0⟩ ∧ (symlinkMetadata u x).isSome ∧ J u) J
  writeAll : ∀ i bytes, Triple J (FileSystem.writeAll ⟨x, i⟩ bytes) (fun _ => J) J

variable {Free Held : Path → Prop} {u u' u₀ : σ} {x : Path}

theorem Kept.steady (h : Kept Free Held u₀ u) (hdisj : ∀ z, Held z → z ≠ x)
    (hs : Steady x u u') : Kept Free Held u₀ u' where
  free y hy := hs.straight (h.free y hy)
  held z hz := by
    obtain ⟨hstraight, hsame⟩ := h.held z hz
    obtain ⟨hkind, hcontent⟩ := hs.others z hstraight (hdisj z hz)
    exact ⟨hs.straight hstraight, hkind.trans hsame.1, hcontent.trans hsame.2⟩

theorem keptName_kept [LocalPhysicalFS σ]
    (hx : ∀ u, Kept Free Held u₀ u → Straight u x.dropLast) (hdisj : ∀ z, Held z → z ≠ x) :
    KeptName (Kept Free Held u₀) x where
  createDir := Triple.of_forall fun u hu =>
    (LocalPhysicalFS.createDir u x (hx u hu)).weaken (fun _ h => h)
      (fun _ _ h => hu.steady hdisj h) fun _ h => hu.steady hdisj h
  removeFile := Triple.of_forall fun u hu =>
    (LocalPhysicalFS.removeFile u x (hx u hu)).weaken (fun _ h => h)
      (fun _ _ h => hu.steady hdisj h.1) fun _ h => hu.steady hdisj h
  removeDir := Triple.of_forall fun u hu =>
    (LocalPhysicalFS.removeDir u x (hx u hu)).weaken (fun _ h => h)
      (fun _ _ h => hu.steady hdisj h.1) fun _ h => hu.steady hdisj h

theorem keptAt_kept [LocalPhysicalFS σ] (hx : Free x) (hdisj : ∀ z, Held z → z ≠ x) :
    KeptAt (Kept Free Held u₀) x where
  toKeptName :=
    keptName_kept (fun _ hu => (hu.free x hx).of_isPrefix (List.dropLast_prefix x)) hdisj
  createFile := Triple.of_forall fun u hu =>
    (LocalPhysicalFS.createFile u x (hu.free x hx)).weaken (fun _ h => h)
      (fun _ _ h => ⟨h.2.1, by simp [← isSome_kindAt, h.2.2.1], hu.steady hdisj h.1⟩)
      fun _ h => hu.steady hdisj h
  writeAll i bytes := Triple.of_forall fun u hu =>
    (LocalPhysicalFS.writeAll u x i bytes (hu.free x hx)).weaken (fun _ h => h)
      (fun _ _ h => hu.steady hdisj h.1) fun _ h => hu.steady hdisj h

/-! ### Directories without links -/

namespace Tree

variable {t t' : Tree} {p : Path}

@[simp] theorem kindAt_eq (t : Tree) (p : Path) : kindAt t p = (t.get? p).map kind := by
  change ((t.get? p).map _).map _ = _
  rw [Option.map_map]
  rfl

theorem contentAt_eq (t : Tree) (p : Path) : contentAt t p = match t.get? p with
    | none => .error .fileNotFound
    | some n => n.reader.readToEnd := by
  change (do (← openFile t p).readToEnd) = _
  rw [openFile]
  cases t.get? p <;> rfl

theorem kind_ne_symlink (n : Node) : kind n ≠ .symlink := by
  cases n <;> simp [kind]

theorem kindAt_ne_symlink (t : Tree) (p : Path) : kindAt t p ≠ some .symlink := by
  rw [kindAt_eq]
  intro h
  obtain ⟨n, -, hn⟩ := Option.map_eq_some_iff.mp h
  exact kind_ne_symlink n hn

theorem straight (t : Tree) (p : Path) : Straight t p := fun q _ _ => kindAt_ne_symlink t q

theorem steady_update {n : Option Node} (h : t'.get? = Function.update t.get? p n) :
    Steady p t t' where
  others y _ hy := by
    have hget : t'.get? y = t.get? y := by rw [h, Function.update_of_ne hy]
    exact ⟨by rw [kindAt_eq, kindAt_eq, hget], by rw [contentAt_eq, contentAt_eq, hget]⟩
  noLink _ := kindAt_ne_symlink t' p

theorem steady_refl (t : Tree) (p : Path) : Steady p t t where
  others _ _ _ := ⟨rfl, rfl⟩
  noLink h := h

instance : LocalPhysicalFS Tree where
  existsAt_of_straight t p _ := by
    rw [isSome_kindAt, isSome_symlinkMetadata, existsAt_eq]
  createDir t p _ := (createDir_spec t p).weaken (fun _ h => h)
    (fun _ _ h => steady_update h.2.2.2) (by rintro _ rfl; exact steady_refl _ p)
  createFile t p _ := by
    refine (createFile_spec t p).weaken (fun _ h => h) ?_ (by rintro _ rfl; exact steady_refl _ p)
    rintro w t' ⟨rfl, -, -, -, hget⟩
    have hp : t'.get? p = some (.file []) := by rw [hget, Function.update_self]
    exact ⟨steady_update hget, rfl, by rw [kindAt_eq, hp]; rfl, by rw [contentAt_eq, hp]; rfl⟩
  writeAll t p i bytes _ := by
    refine (writeAll_spec t ⟨p, i⟩ bytes).weaken (fun _ h => h) ?_
      (by rintro _ rfl; exact steady_refl _ p)
    rintro _ t' ⟨c, hc, hget⟩
    have hp : t'.get? p = some (.file (splice c i bytes)) := by rw [hget, Function.update_self]
    refine ⟨steady_update hget, ?_, fun d hd => ?_⟩
    · rw [kindAt_eq, kindAt_eq, hp, hc]
      rfl
    · rw [contentAt_eq, hc] at hd
      cases hd
      rw [contentAt_eq, hp]
      rfl
  removeFile t p _ := by
    refine (removeFile_spec t p).weaken (fun _ h => h) ?_ (by rintro _ rfl; exact steady_refl _ p)
    rintro _ t' ⟨-, hget⟩
    exact ⟨steady_update hget, by rw [kindAt_eq, hget, Function.update_self]; rfl⟩
  removeDir t p _ := by
    refine (removeDir_spec t p).weaken (fun _ h => h) ?_ (by rintro _ rfl; exact steady_refl _ p)
    rintro _ t' ⟨-, -, -, hget⟩
    exact ⟨steady_update hget, by rw [kindAt_eq, hget, Function.update_self]; rfl⟩
  symlink t l p _ := by
    rintro _ rfl y - -
    exact ⟨rfl, rfl⟩

end Tree

end Rspacefs
