import Rspacefs.Core.Endless
import Rspacefs.Lib.Fuel

/-!
# When `move_dir` ends

The source takes a stack frame for each directory it goes into, and goes into all that it finds.
A move to a directory that is not below the source has to do with the layers as they were, which
are finite. A move to one below finds the copy that it makes. Then it ends only if something
keeps it from going on, an error or a directory on the way that does not show; and what does is
to be seen from the layers.

## Main definitions

* `Halts` — with enough frames, `move_dir` does not run out of them
* `IntoItself` — the destination is below the source, and nothing keeps the copies from going on
* `Arrived` — the copies have got to a directory on the way

## Main results

* `Endless.run_copyListed` — where nothing does, a run takes all the frames there are
* `Arrived.next` — a run that takes all frames goes on to the next directory
* `halts_iff` — `move_dir` halts exactly if it does not go into its own copies
-/

namespace Rspacefs

open Lib LayerFS

variable {fs fs' fs₁ : Stack} {src dest t w q r x : Path} {n m : Name} {S : Set Path}
  {l l₁ l₂ : List Name} {node : Node} {frames : Nat}

/-! ### More frames -/

/-- What a copy does with some frames, it does with more. -/
theorem copyDirRecursive_runsOn (frames : Nat) (src dest : Path) :
    RunsOn .stackOverflow (copyDirRecursive frames src dest : VfsM Stack Unit)
      (copyDirRecursive (frames + 1) src dest) := by
  induction frames generalizing src dest with
  | zero => exact fun fs => Or.inl rfl
  | succ frames ih =>
    rw [copyDirRecursive_succ, copyDirRecursive_succ]
    refine (RunsOn.refl _).bind fun _ => (RunsOn.refl _).bind fun entries => RunsOn.forM ?_
    intro n _ fs
    rw [run_copyEntry, run_copyEntry]
    cases view fs (src ++ [n]) with
    | none => exact Or.inr rfl
    | some node =>
      cases node with
      | dir => exact ih _ _ fs
      | file c => exact Or.inr rfl

/-- An entry takes finitely many frames if the copy of it does where it is a directory. -/
theorem terminates_copyEntry
    (h : view fs (src ++ [n]) = some .dir → Terminates .stackOverflow
      (fun frames => copyDirRecursive frames (src ++ [n]) (dest ++ [n])) fs) :
    Terminates .stackOverflow
      (fun frames => copyEntry (copyDirRecursive frames) src dest n) fs := by
  cases hview : view fs (src ++ [n]) with
  | none =>
    refine (Terminates.fixed (x := pure ()) fun hout => hout).congr fun frames => ?_
    rw [run_copyEntry, hview]
    rfl
  | some node =>
    cases node with
    | dir =>
      refine (h hview).congr fun frames => ?_
      rw [run_copyEntry, hview]
    | file c =>
      have hfile := copyFile_noOverflow (src ++ [n]) (dest ++ [n]) c
      refine (Terminates.of_failsWith hfile hview).congr fun frames => ?_
      rw [run_copyEntry, hview]

theorem terminates_copyDirRecursive (fs : Stack) (hinto : ¬ Into src dest) :
    Terminates .stackOverflow (fun frames => copyDirRecursive frames src dest) fs := by
  obtain ⟨N, hN⟩ := exists_noOverflow_copyDirRecursive fs hinto
  refine (terminates_iff fun frames => copyDirRecursive_runsOn frames src dest).mpr ⟨N, ?_⟩
  intro hout
  obtain ⟨fs', hrun⟩ := hout.exists_error
  exact hN N le_rfl fs rfl _ fs' hrun rfl

/-! ### Along the way -/

/-- The entries of a directory, after its target was made. -/
def copyListed (frames : Nat) (src dest : Path) : VfsM Stack Unit := do
  let entries ← ask fun fs : Stack => LayerFS.readDir src fs
  entries.forM (copyEntry (copyDirRecursive frames) src dest)

/-- The copies have got to `w`, and made its target. -/
structure Arrived (fs₁ : Stack) (src t w : Path) (S : Set Path) (fs : Stack) : Prop where
  laid : Laid fs₁ src t S fs
  above : ∀ q, q <+: w → q ∈ S
  before : ∀ q k, Due fs₁ src t q → MetAt t k q → k < w.length → q ∈ S
  only : ∀ x ∈ S, x = w ∨ ∃ k, k < w.length ∧ MetAt t k x

/-- A listing is sorted, so the entries before one are those that are smaller. -/
theorem exists_split_of_mem (hl : LayerFS.readDir src fs = .ok l) (hn : n ∈ l) :
    ∃ l₁ l₂, l = l₁ ++ n :: l₂ ∧ l₁.Nodup ∧ (∀ m, m ∈ l₁ ↔ m ∈ l ∧ m < n) ∧
      ∀ m ∈ l₂, m ≠ n := by
  obtain ⟨l₁, l₂, rfl⟩ := List.append_of_mem hn
  have hsorted := pairwise_readDir hl
  rw [List.pairwise_append, List.pairwise_cons] at hsorted
  obtain ⟨hbefore, ⟨hafter, -⟩, hacross⟩ := hsorted
  refine ⟨l₁, l₂, rfl, hbefore.imp ne_of_lt, fun m => ⟨fun hm => ?_, ?_⟩,
    fun m hm => (hafter m hm).ne'⟩
  · exact ⟨List.mem_append_left _ hm, hacross m hm n List.mem_cons_self⟩
  · rintro ⟨hm, hlt⟩
    rcases List.mem_append.mp hm with hm | hm
    · exact hm
    · rcases List.mem_cons.mp hm with rfl | hm
      · exact absurd hlt (lt_irrefl _)
      · exact absurd hlt (lt_asymm (hafter m hm))

/-- They are copied first. -/
theorem run_copyListed_append (frames : Nat) (hl : LayerFS.readDir src fs = .ok (l₁ ++ n :: l₂)) :
    (copyListed frames src dest).run fs =
      (l₁.forM (copyEntry (copyDirRecursive frames) src dest) >>= fun _ =>
        copyEntry (copyDirRecursive frames) src dest n >>= fun _ =>
          l₂.forM (copyEntry (copyDirRecursive frames) src dest)).run fs := by
  rw [copyListed, run_bind_of_ok (run_ask_eq_ok.mpr ⟨hl, rfl⟩)]
  exact congrArg (EStateM.run · fs) List.forM_append

/-- Beside the way nothing is copied into itself. -/
theorem not_into_of_ne (ht : t ≠ []) (hway : OnTheWay t (w ++ [n])) (hne : m ≠ n) :
    ¬ Into (src ++ w ++ [m]) (src ++ (t ++ w) ++ [m]) := by
  rintro ⟨rest, -, -, he⟩
  have hm : OnTheWay t (w ++ [m]) := by
    refine ⟨rest, ?_⟩
    simpa using he.symm
  exact hne (hm.next_unique ht hway)

/-- The entries before the next name do not lead to it. -/
theorem besideWay_of_mem_belowAny {T : Set Path} (hway : OnTheWay t (w ++ [n]))
    (hlt : ∀ m ∈ l, m < n)
    (hx : x ∈ BelowAny T w l) : BesideWay t w x ∧ ¬ w ++ [n] <+: x := by
  obtain ⟨-, m, hm, rest, rfl⟩ := hx
  refine ⟨⟨n, m, rest, hway, hlt m hm, by simp⟩, fun hpre => ?_⟩
  have hsame := List.prefix_of_prefix_length_le hpre (List.prefix_append _ rest) (by simp)
  rw [List.prefix_append_right_inj] at hsame
  obtain rfl : n = m := by simpa using hsame
  exact lt_irrefl _ (hlt n hm)

namespace Arrived

variable (ht : t ≠ []) (hmark : NoMarker t) (hway : OnTheWay t (w ++ [n]))

section

include ht hway

/-- What is to be copied to where it is listed before the next name is copied. -/
theorem done_before (h : Arrived fs₁ src t w S fs) (hlt : m < n) (hpre : w ++ [m] <+: t ++ q)
    (hdue : Due fs₁ src t q) : q ∈ S := by
  have hpos := List.length_pos_iff.mpr ht
  obtain ⟨rest, hrest⟩ := hpre
  have hbeside : BesideWay t w (t ++ q) := ⟨n, m, rest, hway, hlt, by simp [← hrest]⟩
  obtain ⟨j, hj, hmet⟩ := MetAt.drop (Or.inr ⟨w, rfl, hbeside⟩)
  exact h.before q j hdue hmet (by omega)

omit hway in
/-- And on the way, as far as the next directory. -/
theorem done_way (h : Arrived fs₁ src t w S fs) (hw : OnTheWay t w) (hx : OnTheWay t x)
    (hle : x.length ≤ w.length + 1) (heq : x = t ++ q) : q ∈ S := by
  subst heq
  have hpos := List.length_pos_iff.mpr ht
  rw [List.length_append] at hle
  exact h.above q ((onTheWay_append_iff.mp hx).isPrefix_of_length_le ht hw (by omega))

/-- It is the turn of what is listed before the next name. -/
theorem next_of_lt (h : Arrived fs₁ src t w S fs) (hlt : m < n) :
    Next fs₁ src t S (w ++ [m]) where
  above := fun q hq hne => h.above q ((List.prefix_concat_iff.mp hq).resolve_left hne)
  fresh := by
    intro x hx hpre
    have hw : w <+: x := (List.prefix_append w [m]).trans hpre
    rcases h.only x hx with rfl | ⟨k, hk, hmet⟩
    · have := hpre.length_le
      simp at this
    · exact hmet.not_isPrefix ht (hway.of_isPrefix (List.prefix_append w [n])) hk hw
  done := fun q hq hdue => h.done_before ht hway hlt hq hdue

end

include ht hmark hway

/-- The entries that are listed before the next name. -/
theorem outcome_before (h : Arrived fs₁ src t w S fs)
    (hdest : (fs₁.upper.get? (src ++ t)).isSome)
    (hdirs : ∀ q, q <+: w → inTurn fs₁ src t q = some .dir) (frames : Nat) (hnodup : l.Nodup)
    (hlt : ∀ m ∈ l, m < n) (hnames : ∀ m ∈ l, ¬ IsMarker m) :
    Outcome fs₁ src t S (BelowAny {x | Due fs₁ src t x} w l)
      ((l.forM (copyEntry (copyDirRecursive frames) (src ++ w) (src ++ (t ++ w)))).run fs) := by
  have hbeside : ∀ m ∈ l, BesideWay t w (w ++ [m]) := fun m hm => ⟨n, m, [], hway, hlt m hm, rfl⟩
  have hplain : NoMarker w := fun m hm =>
    hmark m ((hway.of_isPrefix (List.prefix_append w [n])).mem_of_mem ht hm)
  exact outcome_copyEntries ht hmark h.laid hnodup (fun m hm => h.next_of_lt ht hway (hlt m hm))
    (fun m hm => hplain.concat (hnames m hm))
    (fun m hm => ⟨w.length, Or.inr ⟨w, rfl, hbeside m hm⟩⟩) hdirs
    fun m hm S fs h hnext hdue => outcome_copyDirRecursive ht hmark hdest frames h hnext hdue
      ⟨w, hbeside m hm⟩ (by simp)

/-- What is due beside the way is below those entries. -/
theorem mem_belowAny (h : Arrived fs₁ src t w S fs) (hl : LayerFS.readDir (src ++ w) fs = .ok l)
    (hl₁ : ∀ m ∈ l, m < n → m ∈ l₁) (hdue : Due fs₁ src t r) (hbeside : BesideWay t w r) :
    r ∈ BelowAny {x | Due fs₁ src t x} w l₁ := by
  obtain ⟨n', m, rest, hway', hlt, rfl⟩ := hbeside
  rw [hway'.next_unique ht hway] at hlt
  have hpre : w ++ [m] <+: w ++ m :: rest :=
    (List.prefix_append_right_inj w).mpr (List.prefix_append [m] rest)
  have hm : NoMarker (w ++ [m]) := hdue.plain.of_isPrefix hpre
  have hshown : inTurn fs₁ src t (w ++ [m]) ≠ none := by
    by_cases he : w ++ [m] = w ++ m :: rest
    · rw [he]
      exact hdue.shown
    · simp [hdue.above _ hpre he]
  refine ⟨hdue, m, hl₁ m ?_ hlt, hpre⟩
  apply mem_readDir_of_isSome_view (hm m (by simp)) hl
  have hnext := h.next_of_lt ht hway hlt
  rw [List.append_assoc, h.laid.view_eq ht hmark hm (by simp)
    fun q he => hnext.done q (he ▸ List.prefix_refl _)]
  exact Option.isSome_iff_ne_none.mpr hshown

/-- With the target of the next directory, the copies have got there. -/
theorem next (h : Arrived fs₁ src t w S fs) (hl : LayerFS.readDir (src ++ w) fs = .ok l)
    (hl₁ : ∀ m ∈ l, m < n → m ∈ l₁) (hlt : ∀ m ∈ l₁, m < n)
    (hlaid : Laid fs₁ src t (insert (w ++ [n]) (S ∪ BelowAny {x | Due fs₁ src t x} w l₁)) fs') :
    Arrived fs₁ src t (w ++ [n])
      (insert (w ++ [n]) (S ∪ BelowAny {x | Due fs₁ src t x} w l₁)) fs' := by
  have hw : OnTheWay t w := hway.of_isPrefix (List.prefix_append w [n])
  refine ⟨hlaid, ?_, ?_, ?_⟩
  · intro q hq
    rcases List.prefix_concat_iff.mp hq with rfl | hq
    · exact Or.inl rfl
    · exact Or.inr (Or.inl (h.above q hq))
  · intro q k hdue hmet hk
    right
    rw [List.length_append, List.length_singleton] at hk
    rcases Nat.lt_succ_iff_lt_or_eq.mp hk with hk | rfl
    · exact Or.inl (h.before q k hdue hmet hk)
    · rcases hmet with ⟨hq, hlen⟩ | ⟨w', hlen, hbeside⟩
      · exact Or.inl (h.above q (hq.isPrefix_of_length_le ht hw hlen.le))
      · right
        obtain ⟨n', m, rest, hway', -, -⟩ := id hbeside
        have hsame := (hway'.of_isPrefix (List.prefix_append w' [n'])).isPrefix_of_length_le ht hw
          hlen.le
        rw [hsame.eq_of_length hlen] at hbeside
        exact h.mem_belowAny ht hmark hway hl hl₁ hdue hbeside
  · intro x hx
    rw [List.length_append, List.length_singleton]
    rcases hx with rfl | hx | hx
    · exact Or.inl rfl
    · right
      rcases h.only x hx with rfl | ⟨k, hk, hmet⟩
      · exact ⟨x.length, by omega, Or.inl ⟨hw, rfl⟩⟩
      · exact ⟨k, by omega, hmet⟩
    · right
      exact ⟨w.length, by omega, Or.inr ⟨w, rfl, (besideWay_of_mem_belowAny hway hlt hx).1⟩⟩

/-- That target is made, unless there is no place for it. -/
theorem ends_makeNext (h : Arrived fs₁ src t w S fs)
    (hl : LayerFS.readDir (src ++ w) fs = .ok l) (hl₁ : ∀ m ∈ l, m < n → m ∈ l₁)
    (hlt : ∀ m ∈ l₁, m < n)
    (hlaid : Laid fs₁ src t (S ∪ BelowAny {x | Due fs₁ src t x} w l₁) fs')
    (hdue : Due fs₁ src t (w ++ [n])) (hdir : inTurn fs₁ src t (w ++ [n]) = some .dir) :
    Ends ((makeTarget (src ++ (t ++ (w ++ [n])))).run fs')
      (fun _ fs'' => ¬ Shut fs₁ (src ++ (t ++ (w ++ [n]))) ∧
        ∃ S, Arrived fs₁ src t (w ++ [n]) S fs'')
      (fun _ => Shut fs₁ (src ++ (t ++ (w ++ [n])))) := by
  have hw : OnTheWay t w := hway.of_isPrefix (List.prefix_append w [n])
  -- so far the copies have been beside the way or before this point of it
  have hnew : w ++ [n] ∉ S ∪ BelowAny {x | Due fs₁ src t x} w l₁ := by
    rintro (hx | hx)
    · rcases h.only _ hx with he | ⟨k, hk, hmet⟩
      · simp at he
      · exact hmet.not_isPrefix ht hw hk (List.prefix_append w [n])
    · exact (besideWay_of_mem_belowAny hway hlt hx).2 (List.prefix_refl _)
  have habove : ∀ q, q <+: w ++ [n] → q ≠ w ++ [n] →
      q ∈ S ∪ BelowAny {x | Due fs₁ src t x} w l₁ :=
    fun q hq hne => Or.inl (h.above q ((List.prefix_concat_iff.mp hq).resolve_left hne))
  have hends := hlaid.ends_makeTarget ht hmark hdue (by simp) hnew habove hdir
  cases hrun : (makeTarget (src ++ (t ++ (w ++ [n])))).run fs' with
  | error e fs'' =>
    rw [hrun] at hends
    exact hends
  | ok a fs'' =>
    rw [hrun] at hends
    exact ⟨hends.1, _, h.next ht hmark hway hl hl₁ hlt hends.2⟩

end Arrived

/-! ### Copies without end -/

theorem copyDirRecursive_eq_copyListed (frames : Nat) (src dest : Path) :
    (copyDirRecursive (frames + 1) src dest : VfsM Stack Unit) =
      makeTarget dest >>= fun _ => copyListed frames src dest :=
  copyDirRecursive_succ frames src dest

namespace Endless

variable (ht : t ≠ []) (hmark : NoMarker t) (hend : Endless fs₁ src t)
include ht hmark hend

/-- The way is gone all along. -/
theorem due (hw : OnTheWay t w) : Due fs₁ src t w where
  turn := ⟨w.length, Or.inl ⟨hw, rfl⟩⟩
  plain := fun _ hm => hmark _ (hw.mem_of_mem ht hm)
  above := fun q hq _ => hend.way q (hw.of_isPrefix hq)
  shown := by simp [hend.way w hw]

/-- The next directory is shown where it belongs, until the copies get there. -/
theorem view_next (hlaid : Laid fs₁ src t S fs) (hway : OnTheWay t (w ++ [n]))
    (hdone : ∀ q, w ++ [n] = t ++ q → q ∈ S) : view fs (src ++ (w ++ [n])) = some .dir := by
  rw [hlaid.view_eq ht hmark (hend.due ht hmark hway).plain (by simp) fun q he _ => hdone q he]
  exact hend.way _ hway

variable (hdest : (fs₁.upper.get? (src ++ t)).isSome)
include hdest

/-- A directory on the way can be listed, and lists the next one. -/
theorem lists_next (h : Arrived fs₁ src t w S fs) (hway : OnTheWay t (w ++ [n])) :
    ∃ l, LayerFS.readDir (src ++ w) fs = .ok l ∧ n ∈ l := by
  have hw : OnTheWay t w := hway.of_isPrefix (List.prefix_append w [n])
  have hdue := hend.due ht hmark hw
  have hlist : ¬ FileInTheWay fs (src ++ w) := by
    rw [h.laid.fileInTheWay_iff ht hmark hdest hdue.plain (hend.way w hw)
      fun q he _ => h.done_way ht hw hw (Nat.le_succ _) he]
    exact fun hfile => hend.free w hdue (Or.inr (Or.inl ⟨hend.way w hw, hfile⟩))
  obtain ⟨l, hl⟩ := exists_readDir hlist
  refine ⟨l, hl, mem_readDir_of_isSome_view ((hend.due ht hmark hway).plain n (by simp)) hl ?_⟩
  rw [List.append_assoc, hend.view_next ht hmark h.laid hway fun q he =>
    h.done_way ht hw hway (by simp) he]
  rfl

/-- From there the copies get to the next, if the frames last. -/
theorem run_copyListed_next (frames : Nat) (h : Arrived fs₁ src t w S fs)
    (hway : OnTheWay t (w ++ [n])) :
    (∃ fs', (copyListed frames (src ++ w) (src ++ (t ++ w))).run fs = .error .stackOverflow fs') ∨
      ∃ fs' fs'' S, ∃ rest : VfsM Stack Unit,
        (copyListed frames (src ++ w) (src ++ (t ++ w))).run fs =
          (copyDirRecursive frames (src ++ (w ++ [n])) (src ++ (t ++ (w ++ [n]))) >>= fun _ =>
            rest).run fs' ∧
        (makeTarget (src ++ (t ++ (w ++ [n])))).run fs' = .ok () fs'' ∧
          Arrived fs₁ src t (w ++ [n]) S fs'' := by
  have hw : OnTheWay t w := hway.of_isPrefix (List.prefix_append w [n])
  have hnext := hend.due ht hmark hway
  obtain ⟨l, hl, hmem⟩ := hend.lists_next ht hmark hdest h hway
  obtain ⟨l₁, l₂, rfl, hnodup, hl₁, -⟩ := exists_split_of_mem hl hmem
  have hlt : ∀ m ∈ l₁, m < n := fun m hm => ((hl₁ m).mp hm).2
  have hbefore := h.outcome_before ht hmark hway hdest
    (fun q hq => hend.way q (hw.of_isPrefix hq)) frames hnodup hlt
    fun m hm => not_isMarker_of_mem_readDir hl ((hl₁ m).mp hm).1
  rw [run_copyListed_append frames hl]
  -- the entries before it end in one of the two errors, or they are copied
  cases hrun : (l₁.forM (copyEntry (copyDirRecursive frames) (src ++ w) (src ++ (t ++ w)))).run
      fs with
  | error e fs' =>
    rw [hrun] at hbefore
    rcases hbefore with rfl | ⟨r, hr, hobstacle⟩
    · exact Or.inl ⟨fs', run_bind_of_error hrun⟩
    · exact absurd hobstacle (hend.free r hr.1)
  | ok a fs' =>
    rw [hrun] at hbefore
    have hmake := h.ends_makeNext ht hmark hway hl (fun m hm hlt => (hl₁ m).mpr ⟨hm, hlt⟩) hlt
      hbefore.1 hnext (hend.way _ hway)
    right
    cases hrun' : (makeTarget (src ++ (t ++ (w ++ [n])))).run fs' with
    | error e fs'' =>
      rw [hrun'] at hmake
      exact absurd (Or.inl hmake) (hend.free _ hnext)
    | ok a fs'' =>
      rw [hrun'] at hmake
      obtain ⟨-, T, harrived⟩ := hmake
      refine ⟨fs', fs'', T, l₂.forM (copyEntry (copyDirRecursive frames) (src ++ w)
        (src ++ (t ++ w))), ?_, hrun', harrived⟩
      have hdir := hend.view_next ht hmark hbefore.1 hway fun q he =>
        Or.inl (h.done_way ht hw hway (by simp) he)
      have hassoc : src ++ (t ++ w) ++ [n] = src ++ (t ++ (w ++ [n])) := by simp
      rw [run_bind_of_ok hrun, EStateM.run_bind, EStateM.run_bind, run_copyEntry,
        List.append_assoc, hdir, hassoc]

/-- So they take all the frames there are. -/
theorem run_copyListed (frames : Nat) (h : Arrived fs₁ src t w S fs) (hw : OnTheWay t w) :
    ∃ fs', (copyListed frames (src ++ w) (src ++ (t ++ w))).run fs =
      .error .stackOverflow fs' := by
  induction frames generalizing w S fs with
  | zero =>
    obtain ⟨n, hway⟩ := exists_onTheWay_concat ht hw
    rcases hend.run_copyListed_next ht hmark hdest 0 h hway with hover | ⟨fs', _, _, rest, hrun, -⟩
    · exact hover
    · exact ⟨fs', hrun⟩
  | succ frames ih =>
    obtain ⟨n, hway⟩ := exists_onTheWay_concat ht hw
    rcases hend.run_copyListed_next ht hmark hdest (frames + 1) h hway with
      hover | ⟨fs', fs'', T, rest, hrun, hmake, harrived⟩
    · exact hover
    · obtain ⟨fs₂, hover⟩ := ih harrived hway
      refine ⟨fs₂, ?_⟩
      rw [hrun, copyDirRecursive_eq_copyListed, bind_assoc, run_bind_of_ok hmake]
      exact run_bind_of_error hover

end Endless

/-! ### Runs that do not end -/

/-- Beside the way, every copy ends. -/
theorem terminates_beside (src : Path) (ht : t ≠ []) (hway : OnTheWay t (w ++ [n]))
    (hl : ∀ m ∈ l, m ≠ n) (fs : Stack) :
    Terminates .stackOverflow (fun frames =>
      l.forM (copyEntry (copyDirRecursive frames) (src ++ w) (src ++ (t ++ w)))) fs :=
  Terminates.forM (fun m hm fs => terminates_copyEntry fun _ =>
    terminates_copyDirRecursive fs (not_into_of_ne ht hway (hl m hm))) fs

/-- A copy that does not end makes its target, and does not end behind it. -/
theorem exists_not_terminates_copyListed
    (hover : ¬ Terminates .stackOverflow (fun frames => copyDirRecursive frames src dest) fs) :
    ∃ fs', (makeTarget dest).run fs = .ok () fs' ∧
      ¬ Terminates .stackOverflow (fun frames => copyListed frames src dest) fs' := by
  rw [← terminates_succ_iff] at hover
  simp only [copyDirRecursive_eq_copyListed] at hover
  obtain ⟨⟨⟩, fs', ⟨N, hN⟩, hlisted⟩ := Terminates.exists_of_not_bind
    (Terminates.of_failsWith (makeTarget_noOverflow (S := fun _ => True) _) trivial) hover
  exact ⟨fs', hN N le_rfl, hlisted⟩

/-- The listing that it goes through succeeds, and has the next directory in it. -/
theorem lists_of_not_terminates (ht : t ≠ []) (hway : OnTheWay t (w ++ [n]))
    (hover : ¬ Terminates .stackOverflow (fun frames =>
      copyListed frames (src ++ w) (src ++ (t ++ w))) fs) :
    ∃ l, LayerFS.readDir (src ++ w) fs = .ok l ∧ n ∈ l := by
  have hlist : ¬ FileInTheWay fs (src ++ w) := by
    intro hfile
    apply hover
    refine ⟨.error .ioError fs, ⟨0, fun frames _ => ?_⟩, by simp [OutOf]⟩
    have hread : (ask fun fs : Stack => LayerFS.readDir (src ++ w) fs).run fs =
        .error .ioError fs := by
      rw [run_ask, hfile.readDir]
    exact run_bind_of_error hread
  obtain ⟨l, hl⟩ := exists_readDir hlist
  refine ⟨l, hl, ?_⟩
  by_contra hout
  apply hover
  refine (terminates_beside src ht hway (fun m hm he => hout (he ▸ hm)) fs).congr fun frames => ?_
  exact run_bind_of_ok (run_ask_eq_ok.mpr ⟨hl, rfl⟩)

/-- It is the copy of that directory which does not end. -/
theorem exists_not_terminates_next (ht : t ≠ []) (hway : OnTheWay t (w ++ [n]))
    (hl : LayerFS.readDir (src ++ w) fs = .ok (l₁ ++ n :: l₂)) (hl₁ : ∀ m ∈ l₁, m ≠ n)
    (hl₂ : ∀ m ∈ l₂, m ≠ n)
    (hover : ¬ Terminates .stackOverflow (fun frames =>
      copyListed frames (src ++ w) (src ++ (t ++ w))) fs) :
    ∃ fs', Settles (fun frames =>
        l₁.forM (copyEntry (copyDirRecursive frames) (src ++ w) (src ++ (t ++ w)))) fs
          (.ok () fs') ∧
      view fs' (src ++ (w ++ [n])) = some .dir ∧
        ¬ Terminates .stackOverflow (fun frames =>
          copyDirRecursive frames (src ++ (w ++ [n])) (src ++ (t ++ (w ++ [n])))) fs' := by
  have hloop := fun hterm => hover (Terminates.congr hterm fun frames =>
    run_copyListed_append frames hl)
  obtain ⟨⟨⟩, fs', hsettles, hrest⟩ := Terminates.exists_of_not_bind
    (terminates_beside src ht hway hl₁ fs) hloop
  have hentry := fun hterm => hrest (Terminates.bind hterm fun _ fs' _ =>
    terminates_beside src ht hway hl₂ fs')
  refine ⟨fs', hsettles, ?_, fun hterm => hentry (terminates_copyEntry fun _ => ?_)⟩
  · by_contra hne
    exact hentry (terminates_copyEntry fun hview => absurd (by rwa [← List.append_assoc]) hne)
  · have hassoc : src ++ (t ++ w) ++ [n] = src ++ (t ++ (w ++ [n])) := by simp
    rwa [hassoc, List.append_assoc]

/-- A run that takes all the frames there are goes on to the next directory, and has met no
obstacle before. -/
theorem Arrived.next_of_not_terminates (ht : t ≠ []) (hmark : NoMarker t)
    (hway : OnTheWay t (w ++ [n])) (h : Arrived fs₁ src t w S fs)
    (hdest : (fs₁.upper.get? (src ++ t)).isSome)
    (hdirs : ∀ q, q <+: w → inTurn fs₁ src t q = some .dir)
    (hover : ¬ Terminates .stackOverflow (fun frames =>
      copyListed frames (src ++ w) (src ++ (t ++ w))) fs) :
    ¬ FileInTheWay fs₁ (src ++ w) ∧
      (∀ r, Due fs₁ src t r → BesideWay t w r → ¬ Obstacle fs₁ src t r) ∧
        inTurn fs₁ src t (w ++ [n]) = some .dir ∧
          ¬ Shut fs₁ (src ++ (t ++ (w ++ [n]))) ∧ ∃ S fs', Arrived fs₁ src t (w ++ [n]) S fs' ∧
            ¬ Terminates .stackOverflow (fun frames =>
              copyListed frames (src ++ (w ++ [n])) (src ++ (t ++ (w ++ [n])))) fs' := by
  have hw : OnTheWay t w := hway.of_isPrefix (List.prefix_append w [n])
  have hplain : NoMarker (w ++ [n]) := fun m hm => hmark m (hway.mem_of_mem ht hm)
  obtain ⟨l, hl, hmem⟩ := lists_of_not_terminates ht hway hover
  obtain ⟨l₁, l₂, rfl, hnodup, hl₁, hl₂⟩ := exists_split_of_mem hl hmem
  have hlt : ∀ m ∈ l₁, m < n := fun m hm => ((hl₁ m).mp hm).2
  -- the entries before the next directory are copied
  obtain ⟨fs', ⟨N, hN⟩, hview, hcopy⟩ :=
    exists_not_terminates_next ht hway hl (fun m hm => (hlt m hm).ne) hl₂ hover
  have hbefore := h.outcome_before ht hmark hway hdest hdirs N hnodup hlt
    fun m hm => not_isMarker_of_mem_readDir hl ((hl₁ m).mp hm).1
  rw [hN N le_rfl] at hbefore
  have hdir : inTurn fs₁ src t (w ++ [n]) = some .dir := by
    rw [← hview, hbefore.1.view_eq ht hmark hplain (by simp) fun q he _ =>
      Or.inl (h.done_way ht hw hway (by simp) he)]
  have hdue : Due fs₁ src t (w ++ [n]) :=
    ⟨⟨_, Or.inl ⟨hway, rfl⟩⟩, hplain,
      fun q hq hne => hdirs q ((List.prefix_concat_iff.mp hq).resolve_left hne), by simp [hdir]⟩
  -- and its target is made
  have hends := h.ends_makeNext ht hmark hway hl (fun m hm hlt => (hl₁ m).mpr ⟨hm, hlt⟩) hlt
    hbefore.1 hdue hdir
  obtain ⟨fs'', hmake, hlisted⟩ := exists_not_terminates_copyListed hcopy
  rw [hmake] at hends
  refine ⟨?_, ?_, hdir, hends.1, ?_⟩
  · have hlist : ¬ FileInTheWay fs (src ++ w) := by
      intro hfile
      rw [hfile.readDir] at hl
      cases hl
    rwa [← h.laid.fileInTheWay_iff ht hmark hdest
      (hplain.of_isPrefix (List.prefix_append w [n])) (hdirs w (List.prefix_refl w))
      fun q he _ => h.done_way ht hw hw (Nat.le_succ _) he]
  · intro r hr hbeside
    exact hbefore.2 r (h.mem_belowAny ht hmark hway hl (fun m hm hlt => (hl₁ m).mpr ⟨hm, hlt⟩) hr
      hbeside)
  · obtain ⟨T, harrived⟩ := hends.2
    exact ⟨T, fs'', harrived, hlisted⟩

/-- Nor does it anywhere on the way. -/
theorem Arrived.onTheWay_of_not_terminates (ht : t ≠ []) (hmark : NoMarker t)
    (hdest : (fs₁.upper.get? (src ++ t)).isSome) (h : Arrived fs₁ src t [] S fs)
    (hover : ¬ Terminates .stackOverflow (fun frames =>
      copyListed frames (src ++ []) (src ++ (t ++ []))) fs) (hw : OnTheWay t w) :
    (∀ q, q <+: w → inTurn fs₁ src t q = some .dir) ∧
      (w ≠ [] → ¬ Shut fs₁ (src ++ (t ++ w))) ∧ ∃ S fs', Arrived fs₁ src t w S fs' ∧
        ¬ Terminates .stackOverflow (fun frames =>
          copyListed frames (src ++ w) (src ++ (t ++ w))) fs' := by
  induction w using List.reverseRecOn with
  | nil =>
    refine ⟨fun q hq => ?_, fun hne => absurd rfl hne, S, fs, h, hover⟩
    rw [List.prefix_nil.mp hq, inTurn_nil]
  | append_singleton w n ih =>
    obtain ⟨hdirs, -, T, fs', h', hover'⟩ := ih (hw.of_isPrefix (List.prefix_append w [n]))
    obtain ⟨-, -, hdir, hfree, hnext⟩ :=
      h'.next_of_not_terminates ht hmark hw hdest hdirs hover'
    refine ⟨fun q hq => ?_, fun _ => hfree, hnext⟩
    rcases List.prefix_concat_iff.mp hq with rfl | hq
    · exact hdir
    · exact hdirs q hq

/-- So nothing keeps the copies from going on. -/
theorem endless_of_not_terminates (ht : t ≠ []) (hmark : NoMarker t)
    (hdest : (fs₁.upper.get? (src ++ t)).isSome) (hfree : ¬ Shut fs₁ (src ++ t))
    (h : Arrived fs₁ src t [] S fs)
    (hover : ¬ Terminates .stackOverflow (fun frames =>
      copyListed frames (src ++ []) (src ++ (t ++ []))) fs) : Endless fs₁ src t := by
  have hway := fun {w} => h.onTheWay_of_not_terminates (w := w) ht hmark hdest hover
  refine ⟨fun w hw => (hway hw).1 w (List.prefix_refl w), fun r hdue => ?_⟩
  have hnext : ∀ w, OnTheWay t w → ¬ FileInTheWay fs₁ (src ++ w) ∧
      ∀ r, Due fs₁ src t r → BesideWay t w r → ¬ Obstacle fs₁ src t r := by
    intro w hw
    obtain ⟨n, hn⟩ := exists_onTheWay_concat ht hw
    obtain ⟨hdirs, -, T, fs', h', hover'⟩ := hway hw
    obtain ⟨hlist, hbeside, -⟩ := h'.next_of_not_terminates ht hmark hn hdest hdirs hover'
    exact ⟨hlist, hbeside⟩
  obtain ⟨k, ⟨hr, -⟩ | ⟨w, -, hbeside⟩⟩ := hdue.turn
  · -- on the way there are directories
    have hdir := (hway hr).1 r (List.prefix_refl r)
    rintro (hshut | ⟨-, hfile⟩ | ⟨⟨c, hc⟩, -⟩)
    · by_cases hne : r = []
      · rw [hne, List.append_nil] at hshut
        exact hfree hshut
      · exact (hway hr).2.1 hne hshut
    · exact (hnext r hr).1 hfile
    · rw [hdir] at hc
      cases hc
  · obtain ⟨n, m, rest, hn, -, -⟩ := id hbeside
    exact (hnext w (hn.of_isPrefix (List.prefix_append w [n]))).2 r hdue hbeside

/-! ### Whether `move_dir` ends -/

/-- With enough frames, `move_dir` ends in a value or in an error of the filesystem. -/
def Halts (fs : Stack) (src dest : Path) : Prop :=
  ∃ N, ∀ frames ≥ N, FailsWith NoOverflow (· = fs) (LayerFS.moveDir frames src dest)

/-- The destination is below the source and can be made, and in the layers that have it nothing
keeps the copies from going on. -/
def IntoItself (fs : Stack) (src dest : Path) : Prop :=
  ∃ t fs₁, t ≠ [] ∧ NoMarker t ∧ dest = src ++ t ∧ ¬ Shut fs dest ∧
    Placed fs fs₁ dest ((fs.upper.get? dest).getD .dir) ∧ Endless fs₁ src t

/-- The first copy ends, and then there is only the removal. -/
theorem halts_of_terminates
    (h : Terminates .stackOverflow (fun frames => copyDirRecursive frames src dest) fs) :
    Halts fs src dest := by
  obtain ⟨r, ⟨N, hN⟩, hout⟩ := h
  cases r with
  | error e fs' =>
    refine ⟨N, fun frames hframes => ?_⟩
    rintro _ rfl e' fs'' hrun
    rw [LayerFS.moveDir, run_bind_of_error (hN frames hframes)] at hrun
    cases hrun
    exact hout
  | ok a fs' =>
    obtain ⟨M, hM⟩ := exists_noOverflow_removeDirRecursive fs' src
    refine ⟨max N M, fun frames hframes => ?_⟩
    rintro _ rfl e fs'' hrun
    rw [LayerFS.moveDir, run_bind_of_ok (hN frames ((le_max_left N M).trans hframes))] at hrun
    exact hM frames ((le_max_right N M).trans hframes) fs' rfl e fs'' hrun

/-- What is in the upper layer, when an entry was put in place, is known. -/
theorem Placed.get?_eq {fs₂ : Stack} {p : Path} {node : Node} (h : Placed fs fs₁ p node)
    (h' : Placed fs fs₂ p node) : fs₂.upper.get? = fs₁.upper.get? := by
  have hgained : ∀ {fs' : Stack} {q}, Placed fs fs' p node → q <+: p.dropLast →
      fs'.upper.get? q ≠ none := by
    intro fs' q hplaced hq
    rw [← Option.isSome_iff_ne_none]
    apply PathMap.isSome_of_isPrefix (hq.trans (List.dropLast_prefix p))
    rw [hplaced.entry]
    rfl
  funext q
  by_cases hp : q = p
  · rw [hp, h.entry, h'.entry]
  by_cases hm : q = whiteoutPath p
  · rw [hm, h.marker, h'.marker]
  rcases h.touched q hp hm with hsame | ⟨hnone, hdir, -, hq⟩ <;>
    rcases h'.touched q hp hm with hsame' | ⟨hnone', hdir', -, hq'⟩
  · rw [hsame, hsame']
  · exact absurd (hsame.trans hnone') (hgained h hq')
  · exact absurd (hsame'.trans hnone) (hgained h' hq)
  · rw [hdir, hdir']

/-- At the start only the destination is made. -/
theorem arrived_nil {node : Node} (ht : t ≠ []) (h : Placed fs fs₁ (src ++ t) node)
    (h' : Placed fs fs' (src ++ t) node) : Arrived fs₁ src t [] {[]} fs' := by
  have hdue : Due fs₁ src t [] :=
    ⟨⟨0, Or.inl ⟨onTheWay_nil, rfl⟩⟩, by simp [NoMarker],
      fun q hq hne => absurd (List.prefix_nil.mp hq) hne, by simp⟩
  refine ⟨⟨?_, h'.lower.trans h.lower.symm, ?_, ?_, fun q _ => congrFun (h.get?_eq h') q⟩, ?_, ?_,
    fun x hx => Or.inl hx⟩
  · rintro r rfl
    exact hdue
  · rintro r rfl
    rw [inTurn_append ht hdue, inTurn_nil, List.append_nil, h'.entry, h.entry]
    rfl
  · rintro r rfl
    rw [List.append_nil, h'.marker]
  · exact fun q hq => List.prefix_nil.mp hq
  · exact fun q k _ _ hk => absurd hk (Nat.not_lt_zero k)

theorem not_halts_of_intoItself (h : IntoItself fs src dest) : ¬ Halts fs src dest := by
  obtain ⟨t, fs₁, ht, hmark, rfl, hfree, hplaced, hend⟩ := h
  rintro ⟨N, hN⟩
  obtain ⟨⟨⟩, fs', hmake⟩ := returns_makeTarget_iff.mpr hfree
  have hplaced' := (makeTarget_spec fs (by simp [ht])).ok rfl hmake
  have hdest : (fs₁.upper.get? (src ++ t)).isSome := by
    rw [hplaced.entry]
    rfl
  obtain ⟨fs'', hover⟩ :=
    hend.run_copyListed ht hmark hdest N (arrived_nil ht hplaced hplaced') onTheWay_nil
  rw [List.append_nil, List.append_nil] at hover
  refine hN (N + 1) (Nat.le_succ N) fs rfl .stackOverflow fs'' ?_ rfl
  rw [LayerFS.moveDir, copyDirRecursive_eq_copyListed, bind_assoc, run_bind_of_ok hmake]
  exact run_bind_of_error hover

/-- `move_dir` ends exactly if it does not copy a directory into itself with nothing to keep it
from going on. -/
theorem halts_iff (fs : Stack) (src dest : Path) :
    Halts fs src dest ↔ ¬ IntoItself fs src dest := by
  constructor
  · exact fun hhalts hinto => not_halts_of_intoItself hinto hhalts
  · intro h
    apply halts_of_terminates
    by_contra hover
    have hinto : Into src dest := by
      by_contra hinto
      exact hover (terminates_copyDirRecursive fs hinto)
    obtain ⟨t, ht, hmark, rfl⟩ := hinto
    obtain ⟨fs₁, hrun, hlisted⟩ := exists_not_terminates_copyListed hover
    have hplaced := (makeTarget_spec fs (by simp [ht])).ok rfl hrun
    have hdest : (fs₁.upper.get? (src ++ t)).isSome := by
      rw [hplaced.entry]
      rfl
    have hopen : ¬ Shut fs₁ (src ++ t) := by
      rintro (hblocked | hdir)
      · exact not_blocked_of_upper (by simp [hplaced.entry]) hblocked
      · rw [hplaced.marker] at hdir
        cases hdir
    refine h ⟨t, fs₁, ht, hmark, rfl, returns_makeTarget_iff.mp ⟨(), fs₁, hrun⟩, hplaced, ?_⟩
    apply endless_of_not_terminates ht hmark hdest hopen (arrived_nil ht hplaced hplaced)
    simpa only [List.append_nil] using hlisted

/-! ### Layers with nothing but directories on the way -/

/-- The layers hold nothing but directories on the way to `dest`. -/
def OnWay (dest : Path) (fs : Stack) : Prop :=
  fs.lower = [] ∧ ∀ q n, fs.upper.get? q = some n → n = .dir ∧ q <+: dest

namespace OnWay

theorem get?_ne_file (h : OnWay dest fs) (c : Bytes) : fs.upper.get? q ≠ some (.file c) := by
  intro hfile
  cases (h.2 q _ hfile).1

theorem get?_whiteoutPath (h : OnWay (src ++ t) fs) (hmark : NoMarker t) (hne : x ≠ []) :
    fs.upper.get? (whiteoutPath (src ++ x)) = none := by
  by_contra hentry
  obtain ⟨node, hnode⟩ := Option.ne_none_iff_exists'.mp hentry
  have hpre := (h.2 _ _ hnode).2
  obtain ⟨d, n, rfl⟩ := (List.eq_nil_or_concat' x).resolve_left hne
  rw [← List.append_assoc, whiteoutPath_concat, List.append_assoc,
    List.prefix_append_right_inj] at hpre
  exact hmark _ (hpre.subset (by simp)) (isMarker_whiteoutPrefix_append n)

theorem not_shut (h : OnWay (src ++ t) fs) (hmark : NoMarker t) (hne : x ≠ []) :
    ¬ Shut fs (src ++ x) := by
  rintro (⟨q, c, -, hfile⟩ | hdir)
  · exact h.get?_ne_file c hfile
  · rw [h.get?_whiteoutPath hmark hne] at hdir
    cases hdir

theorem not_fileInTheWay (h : OnWay dest fs) (q : Path) : ¬ FileInTheWay fs q := by
  rintro (⟨c, hfile⟩ | ⟨-, u, hu, -⟩)
  · exact h.get?_ne_file c hfile
  · rw [h.1] at hu
    cases hu

theorem placed (h : OnWay dest fs) (hplaced : Placed fs fs' dest .dir) : OnWay dest fs' := by
  refine ⟨hplaced.lower.trans h.1, fun q n hq => ?_⟩
  by_cases hqd : q = dest
  · rw [hqd, hplaced.entry] at hq
    cases hq
    exact ⟨rfl, hqd ▸ List.prefix_refl q⟩
  · have hqm : q ≠ whiteoutPath dest := by
      rintro rfl
      rw [hplaced.marker] at hq
      cases hq
    rcases hplaced.touched q hqd hqm with hsame | ⟨-, hdir, -, hpre⟩
    · exact h.2 q n (hsame ▸ hq)
    · rw [hdir] at hq
      cases hq
      exact ⟨rfl, hpre.trans (List.dropLast_prefix dest)⟩

/-- What is shown below the source is on the way. -/
theorem view_eq_some_iff (h : OnWay (src ++ t) fs) (hmark : NoMarker t) (hne : x ≠ []) :
    view fs (src ++ x) = some node ↔ fs.upper.get? (src ++ x) = some node := by
  have hclear : fs.upper.hides (src ++ x) = false :=
    Tree.hides_eq_false.mpr (h.get?_whiteoutPath hmark hne)
  cases hentry : fs.upper.get? (src ++ x) with
  | some node' => rw [view_of_upper hclear hentry]
  | none =>
    rw [view_of_passed hclear hentry, h.1]
    simp

variable (ht : t ≠ []) (hmark : NoMarker t) (h : OnWay (src ++ t) fs)
  (hdest : fs.upper.get? (src ++ t) = some .dir)
include ht hmark h

/-- Beside the way there is nothing. -/
theorem onTheWay_of_due (hdue : Due fs src t r) : OnTheWay t r := by
  induction hlen : r.length using Nat.strong_induction_on generalizing r with
  | _ k ih =>
    by_cases hnil : r = []
    · exact hnil ▸ onTheWay_nil
    by_cases hcopy : ∃ q, r = t ++ q ∧ Due fs src t q
    · obtain ⟨q, rfl, hq⟩ := hcopy
      have hpos := List.length_pos_iff.mpr ht
      rw [List.length_append] at hlen
      exact onTheWay_append_iff.mpr (ih q.length (by omega) hq rfl)
    · push Not at hcopy
      obtain ⟨node, hnode⟩ := Option.ne_none_iff_exists'.mp hdue.shown
      rw [inTurn_of_not_due hnil hcopy, h.view_eq_some_iff hmark hnil] at hnode
      have hpre := (h.2 _ _ hnode).2
      rw [List.prefix_append_right_inj] at hpre
      exact hpre.trans (List.prefix_append t r)

variable (hdest : fs.upper.get? (src ++ t) = some .dir)
include hdest

/-- On it there are directories. -/
theorem inTurn_eq_dir (hw : OnTheWay t w) : inTurn fs src t w = some .dir := by
  induction hlen : w.length using Nat.strong_induction_on generalizing w with
  | _ k ih =>
    have hpos := List.length_pos_iff.mpr ht
    by_cases hnil : w = []
    · rw [hnil, inTurn_nil]
    -- behind `t` it is a copy of what is shorter; before the end of `t` it was there
    by_cases hpre : t <+: w
    · obtain ⟨q, rfl⟩ := hpre
      rw [List.length_append] at hlen
      have hq := onTheWay_append_iff.mp hw
      have hdir := ih q.length (by omega) hq rfl
      have hdue : Due fs src t q := by
        refine ⟨⟨_, Or.inl ⟨hq, rfl⟩⟩, fun m hm => hmark m (hq.mem_of_mem ht hm),
          fun p hp _ => ?_, by simp [hdir]⟩
        exact ih p.length (by have := hp.length_le; omega) (hq.of_isPrefix hp) rfl
      rw [inTurn_append ht hdue, hdir]
      cases hold : fs.upper.get? (src ++ (t ++ q)) with
      | none => rfl
      | some node =>
        rw [(h.2 _ _ hold).1]
        rfl
    · have hlt : w.length < t.length := by
        by_contra hle
        exact hpre (hw.isPrefix_of_le (by omega))
      have hwt : w <+: t := hw.isPrefix_of_ge hlt.le
      rw [inTurn_of_not_due hnil fun q he _ => hpre ⟨q, he.symm⟩, h.view_eq_some_iff hmark hnil]
      apply Tree.get?_of_isPrefix ((List.prefix_append_right_inj src).mpr hwt) _ hdest
      rw [Ne, List.append_cancel_left_eq]
      rintro rfl
      exact lt_irrefl _ hlt

/-- So nothing keeps the copies from going on. -/
theorem endless : Endless fs src t where
  way := fun w hw => h.inTurn_eq_dir ht hmark hdest hw
  free := by
    intro r hdue
    have hdir := h.inTurn_eq_dir ht hmark hdest (h.onTheWay_of_due ht hmark hdue)
    rintro (hshut | ⟨-, hfile⟩ | ⟨⟨c, hc⟩, -⟩)
    · exact h.not_shut hmark (by simp [ht]) hshut
    · exact h.not_fileInTheWay _ hfile
    · rw [hdir] at hc
      cases hc

end OnWay

/-- Moving `a` to `a/b`. -/
theorem not_halts_ab :
    ¬ Halts ⟨Tree.ofEntries [(["a".toList], .dir)], []⟩ ["a".toList] ["a".toList, "b".toList] := by
  have hway : OnWay (["a".toList] ++ ["b".toList])
      ⟨Tree.ofEntries [(["a".toList], .dir)], []⟩ := by
    refine ⟨rfl, fun q n hq => ?_⟩
    have hall : ∀ e ∈ (Tree.ofEntries [(["a".toList], .dir)]).map.entries,
        e.2 = .dir ∧ e.1 <+: ["a".toList, "b".toList] := by decide
    exact hall ⟨q, n⟩ (AList.mem_lookup_iff.mp hq)
  have hmark : NoMarker ["b".toList] := by decide
  have hfree := hway.not_shut hmark (x := ["b".toList]) (by simp)
  obtain ⟨⟨⟩, fs', hmake⟩ := returns_makeTarget_iff.mpr hfree
  have hplaced := (makeTarget_spec _ (by simp)).ok rfl hmake
  exact not_halts_of_intoItself ⟨["b".toList], fs', by simp, hmark, rfl, hfree, hplaced,
    (hway.placed hplaced).endless (by simp) hmark hplaced.entry⟩

end Rspacefs
