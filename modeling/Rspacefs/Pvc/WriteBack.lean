import Rspacefs.Core.Effects
import Rspacefs.Pvc.Swap

/-!
# Writing a file back across a pivot

`release` and `fsync` of a dirty handle write its buffer through the merged view: they
create the file, write the bytes in as many pieces as the host takes, and flush. The writer
belongs to the root that was read to create the file. A pivot takes a copy of the upper
directory as it is at that moment.

## Main definitions

* `SwappableRoot.writeBack` — the steps of the dispatch thread
* `Written` — a root whose upper directory holds a file, not hidden

## Main results

* `interrupted_writeChunks` — what the new root holds when the pivot comes while writing
* `flushed_survives_iff` — when a write-back that succeeds is in the merged view
-/

namespace Rspacefs

open Lib LayerFS PvcMount

namespace SwappableRoot

variable {υ ℓ : Type} [FileSystem υ] [FileSystem ℓ]

/-- `write_all`: the host takes the bytes piece by piece. -/
def writeChunks (side : Side) : Writer → List Bytes → RootM υ ℓ Unit
  | _, [] => pure ()
  | writer, chunk :: chunks => do
    Thread.atomic (onRoot side (FileSystem.writeAll writer chunk))
    writeChunks side { writer with position := writer.position + chunk.length } chunks

/-- `File::flush` has nothing to do. -/
def flush : RootM υ ℓ Unit := Thread.atomic (pure ())

/-- The write-back of a dirty buffer, in the pieces the host takes. -/
def writeBack (path : Path) (chunks : List Bytes) : RootM υ ℓ Unit := do
  getParent "create file" path
  let (side, writer) ← createFile path
  writeChunks side writer chunks
  flush

end SwappableRoot

/-! ### Up to the file -/

section Lookups

variable {υ ℓ : Type} {content : υ → υ} {m m' : PvcMount υ ℓ} {α β : Type} {b : β} {k : Nat}

/-- A call that only asks can be left out of a run that succeeds. -/
theorem interrupted_asked {g : LayerFS υ ℓ → VfsResult α} {f : α → SwappableRoot.RootM υ ℓ β}
    (h : (SwappableRoot.delegate (ask g) >>= f).interrupted (swap content) k m = (.ok b, m')) :
    ∃ a, (f a).interrupted (swap content) (k - 2) m = (.ok b, m') := by
  have hasked : ∀ side m₀, (Thread.atomic (onRoot side (ask g)) >>= f).alone m₀ = (.ok b, m') →
      ∃ a, (f a).alone m₀ = (.ok b, m') := by
    intro side m₀ h
    rw [Thread.alone_atomic_bind, run_onRoot_ask] at h
    cases hg : g (m₀.rootAt side) with
    | error e =>
      rw [hg] at h
      cases h
    | ok a =>
      rw [hg] at h
      exact ⟨a, h⟩
  rw [SwappableRoot.delegate, Thread.bind_assoc] at h
  -- the pivot before the lock, between the lock and the question, or after both
  match k with
  | 0 =>
    rw [Thread.interrupted_zero, SwappableRoot.alone_currentRoot_bind] at h
    obtain ⟨a, ha⟩ := hasked _ _ h
    exact ⟨a, (Thread.interrupted_zero _ m).trans ha⟩
  | 1 =>
    rw [SwappableRoot.interrupted_currentRoot_bind, Thread.interrupted_zero] at h
    obtain ⟨a, ha⟩ := hasked _ _ h
    exact ⟨a, (Thread.interrupted_zero _ m).trans ha⟩
  | k + 2 =>
    rw [SwappableRoot.interrupted_currentRoot_bind, Thread.interrupted_atomic_bind,
      run_onRoot_ask] at h
    cases hg : g (m.rootAt m.side) with
    | error e =>
      rw [hg] at h
      cases h
    | ok a =>
      rw [hg] at h
      exact ⟨a, h⟩

variable [FileSystem υ] [FileSystem ℓ]

/-- So can the look-ups of the parent. -/
theorem interrupted_getParent {action : String} {path : Path}
    {f : Unit → SwappableRoot.RootM υ ℓ β}
    (h : (SwappableRoot.getParent action path >>= f).interrupted (swap content) k m =
      (.ok b, m')) :
    (f ()).interrupted (swap content) (k - 4) m = (.ok b, m') := by
  rw [SwappableRoot.getParent, Thread.bind_assoc, SwappableRoot.existsAt] at h
  obtain ⟨there, h⟩ := interrupted_asked h
  cases there with
  | false =>
    rw [if_pos (c := (!false) = true) rfl, Thread.fail_bind, Thread.interrupted_fail] at h
    cases h
  | true =>
    rw [if_neg (by simp), Thread.bind_assoc, SwappableRoot.metadata] at h
    obtain ⟨md, h⟩ := interrupted_asked h
    split at h
    · rw [Thread.fail_bind, Thread.interrupted_fail] at h
      cases h
    · rw [Thread.pure_bind, Nat.sub_sub] at h
      exact h

end Lookups

/-! ### Writing the pieces -/

variable {m m' : PvcMount Tree Tree} {side : Side} {path : Path} {c chunk : Bytes}
  {chunks : List Bytes} {k : Nat}

/-- The upper directory of a root holds the file, and does not hide it. -/
structure Written (fs : Stack) (path : Path) (c : Bytes) : Prop where
  entry : fs.upper.get? path = some (.file c)
  marker : fs.upper.get? (whiteoutPath path) = none
  ne_nil : path ≠ []

theorem Written.contentAt_eq {fs : Stack} (h : Written fs path c) : contentAt fs path = .ok c := by
  have hview : view fs path = some (.file c) :=
    view_of_upper (by rw [Tree.hides, h.marker]; rfl) h.entry
  change (LayerFS.openFile path fs >>= _) = _
  rw [LayerFS.openFile_eq, hview]
  rfl

/-- What stays when a program runs on the root over one of the upper directories. -/
structure OnlyAt (side : Side) (m m' : PvcMount Tree Tree) : Prop where
  side_eq : m'.side = m.side
  other : m'.rootAt side.other = m.rootAt side.other

theorem OnlyAt.trans {m'' : PvcMount Tree Tree} (h : OnlyAt side m m') (h' : OnlyAt side m' m'') :
    OnlyAt side m m'' :=
  ⟨h'.side_eq.trans h.side_eq, h'.other.trans h.other⟩

/-- What runs on the old root is not seen in the new one. -/
theorem OnlyAt.merged_eq {content : Tree → Tree} (h : OnlyAt m.side (m.swap content) m') :
    m'.merged = (m.swap content).merged := by
  rw [merged, h.side_eq, side_swap, h.other, merged, side_swap]

/-- Running a program on a root. -/
theorem run_onRoot_eq_ok {α : Type} {x : VfsM Stack α} {a : α}
    (h : (onRoot side x).run m = .ok a m') :
    ∃ fs, x.run (m.rootAt side) = .ok a fs ∧ m' = m.setRoot side fs ∧ OnlyAt side m m' := by
  obtain ⟨fs, hrun, rfl⟩ := run_onPart_eq_ok.mp h
  exact ⟨fs, hrun, rfl, side_setRoot side fs m, rootAt_setRoot_other side fs m⟩

/-- Writing one piece at the end of the file. -/
theorem run_writeAll (h : Written (m.rootAt side) path c)
    (hrun : (onRoot side (FileSystem.writeAll ⟨path, c.length⟩ chunk)).run m = .ok () m') :
    Written (m'.rootAt side) path (c ++ chunk) ∧ OnlyAt side m m' := by
  obtain ⟨fs, hfs, rfl, honly⟩ := run_onRoot_eq_ok hrun
  obtain ⟨-, c', hc', hget⟩ :=
    (onUpper_spec (Tree.writeAll_spec (m.rootAt side).upper ⟨path, c.length⟩ chunk)).ok rfl hfs
  rw [h.entry] at hc'
  cases hc'
  rw [splice_length] at hget
  refine ⟨⟨?_, ?_, h.ne_nil⟩, honly⟩
  · simp [rootAt, setRoot, hget]
  · have hne := whiteoutPath_ne h.ne_nil
    have hmark := h.marker
    simp only [rootAt, setRoot, Function.update_self, hget, Function.update_of_ne hne]
    exact hmark

/-- All pieces are written to the root the writer belongs to. -/
theorem alone_writeChunks (h : Written (m.rootAt side) path c)
    (hrun : (SwappableRoot.writeChunks side ⟨path, c.length⟩ chunks >>= fun _ =>
      SwappableRoot.flush).alone m = (.ok (), m')) :
    Written (m'.rootAt side) path (c ++ chunks.flatten) ∧ OnlyAt side m m' := by
  induction chunks generalizing m c with
  | nil =>
    obtain ⟨-, rfl⟩ := Prod.mk.inj hrun
    rw [List.flatten_nil, List.append_nil]
    exact ⟨h, rfl, rfl⟩
  | cons chunk chunks ih =>
    rw [SwappableRoot.writeChunks, Thread.bind_assoc, Thread.alone_atomic_bind] at hrun
    split at hrun
    · rename_i m₁ hwrite
      obtain ⟨hwritten, honly⟩ := run_writeAll h hwrite
      have hlen : c.length + chunk.length = (c ++ chunk).length := List.length_append.symm
      dsimp only at hrun
      rw [hlen] at hrun
      obtain ⟨hrest, honly'⟩ := ih hwritten hrun
      rw [List.flatten_cons, ← List.append_assoc]
      exact ⟨hrest, honly.trans honly'⟩
    · cases hrun

/-- The new root holds the pieces written before the pivot. -/
theorem interrupted_writeChunks (h : Written m.merged path c)
    (hrun : (SwappableRoot.writeChunks m.side ⟨path, c.length⟩ chunks >>= fun _ =>
      SwappableRoot.flush).interrupted (swap id) k m = (.ok (), m')) :
    Written m'.merged path (c ++ (chunks.take k).flatten) := by
  induction chunks generalizing m c k with
  | nil =>
    have hend : m' = m.swap id := by
      cases k with
      | zero => exact (Prod.mk.inj ((Thread.interrupted_zero _ m).symm.trans hrun)).2.symm
      | succ k =>
        rw [SwappableRoot.writeChunks, Thread.pure_bind, SwappableRoot.flush,
          Thread.interrupted_atomic] at hrun
        exact (Prod.mk.inj hrun).2.symm
    rwa [hend, List.take_nil, List.flatten_nil, List.append_nil, merged_swap_id]
  | cons chunk chunks ih =>
    cases k with
    | zero =>
      -- the pieces go to the old root
      rw [Thread.interrupted_zero] at hrun
      have hold : Written ((m.swap id).rootAt m.side) path c := by
        rw [rootAt_swap_self]
        exact h
      obtain ⟨-, honly⟩ := alone_writeChunks hold hrun
      rwa [List.take_zero, List.flatten_nil, List.append_nil, honly.merged_eq, merged_swap_id]
    | succ k =>
      rw [SwappableRoot.writeChunks, Thread.bind_assoc, Thread.interrupted_atomic_bind] at hrun
      split at hrun
      · rename_i m₁ hwrite
        obtain ⟨hwritten, honly⟩ := run_writeAll h hwrite
        have hlen : c.length + chunk.length = (c ++ chunk).length := List.length_append.symm
        dsimp only at hrun
        rw [hlen, ← honly.side_eq] at hrun
        rw [← honly.side_eq] at hwritten
        rw [List.take_succ_cons, List.flatten_cons, ← List.append_assoc]
        exact ih hwritten hrun
      · cases hrun

/-- Creating the file on a root. -/
theorem run_createFile {writer : Writer}
    (hrun : (onRoot side (VfsPath.createFile path)).run m = .ok writer m') :
    writer = ⟨path, 0⟩ ∧ Written (m'.rootAt side) path [] ∧ OnlyAt side m m' := by
  obtain ⟨fs, hfs, rfl, honly⟩ := run_onRoot_eq_ok hrun
  obtain ⟨_, fs₀, hparent, hfs⟩ := run_bind_eq_ok.mp hfs
  obtain ⟨-, rfl⟩ := run_ask_eq_ok.mp hparent
  obtain ⟨rfl, hplaced⟩ := (createFile_spec (m.rootAt side) path).ok rfl hfs
  refine ⟨rfl, ?_, honly⟩
  have hupper : (m.setRoot side fs).rootAt side = ⟨fs.upper, m.lowers⟩ := by
    simp [rootAt, setRoot]
  rw [hupper]
  exact ⟨hplaced.entry, hplaced.marker, hplaced.ne_nil⟩

/-- A write-back that succeeds across a pivot to a copy of the upper directory is in the
merged view exactly if the pivot comes before the root is read to create the file; or
between that and the creation, where the file had this content already; or after the file
was created, when the pieces left to write are empty. -/
theorem flushed_survives_iff (path : Path) (chunks : List Bytes) (m m' : PvcMount Tree Tree)
    (k : Nat)
    (hrun : (SwappableRoot.writeBack path chunks).interrupted (swap id) k m = (.ok (), m')) :
    contentAt m'.merged path = .ok chunks.flatten ↔
      k ≤ 4 ∨ k = 5 ∧ contentAt m.merged path = .ok chunks.flatten ∨
        6 ≤ k ∧ (chunks.drop (k - 6)).flatten = [] := by
  have hfile := interrupted_getParent hrun
  rw [SwappableRoot.createFile, Thread.bind_assoc] at hfile
  simp only [Thread.bind_assoc, Thread.pure_bind] at hfile
  obtain hk | rfl | ⟨j, rfl⟩ : k ≤ 4 ∨ k = 5 ∨ ∃ j, k = j + 6 := by
    rcases Nat.lt_or_ge k 6 with hlt | hge
    · omega
    · exact Or.inr (Or.inr ⟨k - 6, by omega⟩)
  · -- all of it happens on the new root
    rw [Nat.sub_eq_zero_of_le hk, Thread.interrupted_zero,
      SwappableRoot.alone_currentRoot_bind, Thread.alone_atomic_bind] at hfile
    split at hfile
    · rename_i writer m₁ hcreate
      obtain ⟨rfl, hwritten, honly⟩ := run_createFile hcreate
      obtain ⟨hwritten, honly'⟩ := alone_writeChunks (c := []) hwritten hfile
      rw [List.nil_append, ← (honly.trans honly').side_eq] at hwritten
      exact iff_of_true hwritten.contentAt_eq (Or.inl hk)
    · cases hfile
  · -- all of it happens on the old root, out of sight
    change (SwappableRoot.currentRoot >>= _).interrupted (swap id) (0 + 1) m = _ at hfile
    rw [SwappableRoot.interrupted_currentRoot_bind, Thread.interrupted_zero,
      Thread.alone_atomic_bind] at hfile
    split at hfile
    · rename_i writer m₁ hcreate
      obtain ⟨rfl, hwritten, honly⟩ := run_createFile hcreate
      obtain ⟨-, honly'⟩ := alone_writeChunks (c := []) hwritten hfile
      have hmerged := (honly.trans honly').merged_eq
      rw [hmerged, merged_swap_id]
      simp
    · cases hfile
  · -- the file is created on the old root, and the first pieces are written to it
    change (SwappableRoot.currentRoot >>= _).interrupted (swap id) (j + 1 + 1) m = _ at hfile
    rw [SwappableRoot.interrupted_currentRoot_bind, Thread.interrupted_atomic_bind] at hfile
    split at hfile
    · rename_i writer m₁ hcreate
      obtain ⟨rfl, hwritten, honly⟩ := run_createFile hcreate
      rw [← honly.side_eq] at hwritten hfile
      have hnew := interrupted_writeChunks (c := []) hwritten hfile
      rw [hnew.contentAt_eq, List.nil_append, Except.ok.injEq]
      have hpieces : chunks.flatten = (chunks.take j).flatten ++ (chunks.drop j).flatten := by
        rw [← List.flatten_append, List.take_append_drop]
      rw [hpieces, List.self_eq_append_right, Nat.add_sub_cancel]
      constructor
      · exact fun h => Or.inr (Or.inr ⟨by omega, h⟩)
      · rintro (h | ⟨h, -⟩ | ⟨-, h⟩)
        · omega
        · omega
        · exact h
    · cases hfile

/-- The file is written back while a pivot comes after `k` steps. -/
def rewritten (k : Nat) : VfsResult Unit × PvcMount Tree Tree :=
  (SwappableRoot.writeBack ["f".toList] [[2]]).interrupted (swap id) k fileMount

/-- The pivot comes once the file is created: the write-back succeeds, and the file is
empty. -/
theorem flushed_lost :
    (rewritten 6).1 = .ok () ∧ contentAt (rewritten 6).2.merged ["f".toList] = .ok [] := by
  constructor
  · decide +kernel
  · decide +kernel

theorem flushed_survives_iff_rewritten :
    contentAt (rewritten 7).2.merged ["f".toList] = .ok [2] := by
  refine (flushed_survives_iff ["f".toList] [[2]] fileMount (rewritten 7).2 7 ?_).mpr ?_
  · exact Prod.ext (show (rewritten 7).1 = .ok () by decide +kernel) rfl
  · exact Or.inr (Or.inr ⟨by decide, rfl⟩)

end Rspacefs
