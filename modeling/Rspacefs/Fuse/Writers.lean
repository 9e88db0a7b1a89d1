import Rspacefs.Fuse.Handle

/-!
# Several writers of one file

Each writable handle has the whole file in a buffer of its own, as it was when the handle
was opened, and writes the whole buffer back. Two handles do not see each other's writes:
the one that writes back last leaves its own buffer in the file.

## Main definitions

* `Writers` — a file and the buffers of its writers, as the requests change them
* `lastWriteBack` — the handle that writes back last in a run
* `Simulates` — the daemon's state shows a file and its writers

## Main results

* `Simulates.run` — the daemon does to the file what the requests do to `Writers`
* `Writers.file_after` — in the end the file has the buffer of the last write-back
* `last_write_back_wins`, `first_writer_lost` — two writers
-/

namespace Rspacefs

open Lib LayerFS

variable {a b data data' : Bytes} {off off' n : Nat}

/-! ### Bytes that a write leaves -/

theorem length_splice (a : Bytes) (off : Nat) (data : Bytes) :
    (splice a off data).length = max a.length (off + data.length) := by
  simp only [splice, List.length_append, List.length_take, List.length_drop,
    List.length_replicate]
  omega

/-- What was written is there. -/
theorem slice_splice (a : Bytes) (off : Nat) (data : Bytes) :
    slice (splice a off data) off data.length = data := by
  have hlen : ((a ++ List.replicate (off - a.length) 0).take off).length = off := by
    simp only [List.length_take, List.length_append, List.length_replicate]
    omega
  rw [slice, splice, List.append_assoc, List.drop_left' hlen, List.take_left]

theorem getElem?_splice_before {j : Nat} (hj : j < off) (hlen : j < a.length) :
    (splice a off data)[j]? = a[j]? := by
  rw [splice, List.append_assoc, List.getElem?_append_left (by simp; omega),
    List.getElem?_take_of_lt hj, List.getElem?_append_left hlen]

theorem getElem?_splice_behind {j : Nat} (hj : off + data.length ≤ j) :
    (splice a off data)[j]? = a[j]? := by
  have hlen : ((a ++ List.replicate (off - a.length) 0).take off ++ data).length =
      off + data.length := by
    simp only [List.length_append, List.length_take, List.length_replicate]
    omega
  rw [splice, List.getElem?_append_right (by omega), List.getElem?_drop, hlen]
  congr 1
  omega

/-- What was there stays there under a write beside it. -/
theorem slice_splice_of_disjoint (hn : off + n ≤ a.length)
    (hdisj : off + n ≤ off' ∨ off' + data'.length ≤ off) :
    slice (splice a off' data') off n = slice a off n := by
  refine List.ext_getElem? fun i => ?_
  by_cases hi : i < n
  · rw [slice, slice, List.getElem?_take_of_lt hi, List.getElem?_take_of_lt hi,
      List.getElem?_drop, List.getElem?_drop]
    rcases hdisj with hbefore | hbehind
    · exact getElem?_splice_before (by omega) (by omega)
    · exact getElem?_splice_behind (by omega)
  · rw [List.getElem?_eq_none (by simp; omega), List.getElem?_eq_none (by simp; omega)]

namespace Fuse

variable {s : Fuse Tree Tree} {h fh : Fh} {p : Path} {r : Request} {rs : List Request}

/-- A request through the handle `fh` that may change the file. -/
inductive ByWriter (fh : Fh) : Request → Prop
  | write (offset : Nat) (data : Bytes) : ByWriter fh (.write fh offset data)
  | fsync : ByWriter fh (.fsync fh)
  | release : ByWriter fh (.release fh)

/-- A file and the buffers of its writers. -/
structure Writers where
  file : Bytes
  buffer : Fh → Bytes
  dirty : Fh → Bool

namespace Writers

def after (w : Writers) : Request → Writers
  | .write fh off data => { w with
      buffer := Function.update w.buffer fh (splice (w.buffer fh) off data)
      dirty := Function.update w.dirty fh true }
  | .fsync fh | .release fh => { w with
      file := if w.dirty fh then w.buffer fh else w.file
      dirty := Function.update w.dirty fh false }
  | _ => w

/-- The request writes a changed buffer back. -/
def WritesBack (w : Writers) (fh : Fh) (r : Request) : Prop :=
  w.dirty fh = true ∧ (r = .fsync fh ∨ r = .release fh)

end Writers

/-- A buffer after a request, if that is a write through the handle `fh`. -/
def bufferAfter (fh : Fh) (a : Bytes) : Request → Bytes
  | .write fh' off data => if fh' = fh then splice a off data else a
  | _ => a

/-- The handle that writes back last, where `dirty` says which buffers are changed. -/
def lastWriteBack (dirty : Fh → Bool) : List Request → Option Fh
  | [] => none
  | .write fh _ _ :: rs => lastWriteBack (Function.update dirty fh true) rs
  | .fsync fh :: rs | .release fh :: rs =>
    (lastWriteBack (Function.update dirty fh false) rs).or (if dirty fh then some fh else none)
  | _ :: rs => lastWriteBack dirty rs

/-- A released handle is not used again. -/
def InOrder (rs : List Request) : Prop :=
  rs.Pairwise fun r r' => ∀ fh, r = .release fh → ¬ ByWriter fh r'

/-! ### The last write-back -/

variable {dirty : Fh → Bool} {w : Writers}

theorem foldl_bufferAfter (hrs : ∀ r ∈ rs, ¬ ByWriter fh r) (a : Bytes) :
    rs.foldl (bufferAfter fh) a = a := by
  induction rs with
  | nil => rfl
  | cons r rs ih =>
    obtain ⟨hr, hrs⟩ := List.forall_mem_cons.mp hrs
    have hsame : bufferAfter fh a r = a := by
      cases r with
      | write fh' off data =>
        refine if_neg ?_
        rintro rfl
        exact hr (.write off data)
      | _ => rfl
    rw [List.foldl_cons, hsame]
    exact ih hrs

/-- A changed buffer whose handle is released is written back. -/
theorem lastWriteBack_isSome (hdirty : dirty fh = true) (hrel : .release fh ∈ rs) :
    (lastWriteBack dirty rs).isSome := by
  -- along the handles that are dirty before each request
  induction dirty, rs using lastWriteBack.induct with
  | case1 dirty => simp at hrel
  | case2 dirty fh' off data rs ih =>
    rw [lastWriteBack]
    refine ih ?_ (by simpa using hrel)
    by_cases he : fh = fh' <;> simp [he, hdirty]
  | case3 dirty fh' rs ih =>
    rw [lastWriteBack, Option.isSome_or]
    by_cases he : fh = fh'
    · subst he
      simp [hdirty]
    · rw [ih (by simpa [he] using hdirty) (by simpa using hrel)]
      rfl
  | case4 dirty fh' rs ih =>
    rw [lastWriteBack, Option.isSome_or]
    by_cases he : fh = fh'
    · subst he
      simp [hdirty]
    · rw [ih (by simpa [he] using hdirty) (by simpa [he] using hrel)]
      rfl
  | case5 dirty r rs hwrite hfsync hrelease ih =>
    rw [lastWriteBack]
    · refine ih hdirty ((List.mem_cons.mp hrel).resolve_left ?_)
      rintro rfl
      exact hrelease fh rfl
    all_goals assumption

/-- Where nothing is written back, a released handle does not write. -/
theorem foldl_bufferAfter_of_none (hnone : lastWriteBack dirty rs = none) (hord : InOrder rs)
    (hrel : .release fh ∈ rs) (a : Bytes) : rs.foldl (bufferAfter fh) a = a := by
  induction dirty, rs using lastWriteBack.induct generalizing a with
  | case1 dirty => rfl
  | case2 dirty fh' off data rs ih =>
    rw [lastWriteBack] at hnone
    have hrel' : .release fh ∈ rs := by simpa using hrel
    by_cases he : fh' = fh
    · -- a write makes the buffer changed, and the release writes it back
      subst he
      have hdirty : Function.update dirty fh' true fh' = true := Function.update_self _ _ _
      have := lastWriteBack_isSome hdirty hrel'
      rw [hnone] at this
      cases this
    · rw [List.foldl_cons, bufferAfter, if_neg he]
      exact ih hnone hord.of_cons hrel' a
  | case3 dirty fh' rs ih =>
    rw [lastWriteBack, Option.or_eq_none_iff] at hnone
    exact ih hnone.1 hord.of_cons (by simpa using hrel) a
  | case4 dirty fh' rs ih =>
    rw [lastWriteBack, Option.or_eq_none_iff] at hnone
    by_cases he : fh' = fh
    · subst he
      exact foldl_bufferAfter (fun r hr => List.rel_of_pairwise_cons hord hr fh' rfl) a
    · exact ih hnone.1 hord.of_cons (by simpa [Ne.symm he] using hrel) a
  | case5 dirty r rs hwrite hfsync hrelease ih =>
    rw [lastWriteBack] at hnone
    · have hsame : bufferAfter fh a r = a := by
        cases r with
        | write fh' off data => exact absurd rfl (hwrite fh' off data)
        | _ => rfl
      rw [List.foldl_cons, hsame]
      refine ih hnone hord.of_cons ((List.mem_cons.mp hrel).resolve_left ?_) a
      rintro rfl
      exact hrelease fh rfl
    all_goals assumption

/-- Every handle that is used is released in the end. -/
def AllReleased (rs : List Request) : Prop :=
  ∀ fh, (∃ r ∈ rs, ByWriter fh r) → .release fh ∈ rs

theorem AllReleased.of_cons (h : AllReleased (r :: rs)) (hord : InOrder (r :: rs)) :
    AllReleased rs := by
  rintro fh ⟨r', hr', hby⟩
  refine (List.mem_cons.mp (h fh ⟨r', by simp [hr'], hby⟩)).resolve_left ?_
  rintro rfl
  exact List.rel_of_pairwise_cons hord hr' fh rfl hby

/-- In the end the file has the buffer of the last write-back. -/
theorem Writers.file_after (hrs : ∀ r ∈ rs, ∃ fh, ByWriter fh r) (hord : InOrder rs)
    (hrel : AllReleased rs) :
    (rs.foldl Writers.after w).file = match lastWriteBack w.dirty rs with
      | none => w.file
      | some h => rs.foldl (bufferAfter h) (w.buffer h) := by
  induction rs generalizing w with
  | nil => rfl
  | cons r rs ih =>
    obtain ⟨⟨fh, hr⟩, hrs⟩ := List.forall_mem_cons.mp hrs
    have hrest := ih (w := w.after r) hrs hord.of_cons (hrel.of_cons hord)
    rw [List.foldl_cons, hrest]
    -- a write-back now counts if there is none later
    have hback : ∀ last : Option Fh, (w.dirty fh = true → last = none →
          rs.foldl (bufferAfter fh) (w.buffer fh) = w.buffer fh) →
        (match last with
          | none => if w.dirty fh then w.buffer fh else w.file
          | some h => rs.foldl (bufferAfter h) (w.buffer h)) =
        match last.or (if w.dirty fh then some fh else none) with
          | none => w.file
          | some h => rs.foldl (bufferAfter h) (w.buffer h) := by
      intro last hsame
      cases last with
      | some h => rfl
      | none =>
        cases hdirty : w.dirty fh with
        | false => rfl
        | true => exact (hsame hdirty rfl).symm
    cases hr with
    | write off data =>
      rw [lastWriteBack]
      change (match lastWriteBack (Function.update w.dirty fh true) rs with
        | none => w.file
        | some h => rs.foldl (bufferAfter h) (Function.update w.buffer fh _ h)) = _
      cases lastWriteBack (Function.update w.dirty fh true) rs with
      | none => rfl
      | some h =>
        by_cases he : h = fh
        · subst he
          simp [bufferAfter]
        · simp [bufferAfter, he, Ne.symm he]
    | fsync =>
      refine (hback (lastWriteBack (Function.update w.dirty fh false) rs) ?_).trans ?_
      · intro _ hnone
        have hin := hrel fh ⟨.fsync fh, by simp, .fsync⟩
        exact foldl_bufferAfter_of_none hnone hord.of_cons (by simpa using hin) _
      · rw [lastWriteBack]
        rfl
    | release =>
      refine (hback (lastWriteBack (Function.update w.dirty fh false) rs) ?_).trans ?_
      · intro _ _
        exact foldl_bufferAfter (fun r hr => List.rel_of_pairwise_cons hord hr fh rfl) _
      · rw [lastWriteBack]
        rfl

/-! ### Write-backs that fail -/

variable {b' : Bytes} {c : Bytes} {d : Bool}

theorem run_writeBack_blocked (hview : view s.root p = some (.file c)) (h : ¬ CanCreate s.root p)
    (data : Bytes) : ∃ e, (writeBack p data).run s = .error e s := by
  obtain ⟨e, he⟩ := run_createFile_blocked hview h
  refine ⟨.eio, ?_⟩
  rw [writeBack, EStateM.run_bind, onRoot, run_onPart, EStateM.run_adaptExcept, he]

/-- A changed buffer that cannot be written back stays changed. -/
theorem run_fsync_blocked (hview : view s.root p = some (.file c)) (h : ¬ CanCreate s.root p)
    (hfile : s.openFiles fh = some (.buffered p a true true)) :
    ∃ e, (Fuse.step (.fsync fh)).run s = .error e s := by
  obtain ⟨e, he⟩ := run_writeBack_blocked hview h a
  refine ⟨e, ?_⟩
  change (Fuse.fsync fh).run s = _
  rw [Fuse.fsync, EStateM.run_bind, run_fileOf hfile]
  change (doIf true (do writeBack p a; _) >>= _ : FuseM Tree Tree Reply).run s = _
  rw [doIf, if_pos rfl, EStateM.run_bind, EStateM.run_bind, he]

theorem run_release_blocked (hview : view s.root p = some (.file c)) (h : ¬ CanCreate s.root p)
    (hfile : s.openFiles fh = some (.buffered p a true true)) :
    ∃ e, (Fuse.step (.release fh)).run s =
      .error e { s with openFiles := Function.update s.openFiles fh none } := by
  obtain ⟨e, he⟩ := run_writeBack_blocked
    (s := { s with openFiles := Function.update s.openFiles fh none }) hview h a
  refine ⟨e, ?_⟩
  change (Fuse.release fh).run s = _
  rw [Fuse.release, EStateM.run_bind, run_fileOf hfile]
  change (doIf true (writeBack p a) >>= _ : FuseM Tree Tree Reply).run _ = _
  rw [doIf, if_pos rfl, EStateM.run_bind, he]

/-! ### The daemon and the writers -/

/-- The file `p` shows the content in `w`, and the handles that are still used hold the
buffers in `w`. -/
structure Simulates (s : Fuse Tree Tree) (p : Path) (w : Writers) (rs : List Request) : Prop where
  content : contentAt s.root p = .ok w.file
  handle : ∀ fh, (∃ r ∈ rs, ByWriter fh r) →
    s.openFiles fh = some (.buffered p (w.buffer fh) (w.dirty fh) true)

namespace Simulates

theorem head (h : Simulates s p w (r :: rs)) (hr : ByWriter fh r) :
    s.openFiles fh = some (.buffered p (w.buffer fh) (w.dirty fh) true) :=
  h.handle fh ⟨r, by simp, hr⟩

theorem tail (h : Simulates s p w (r :: rs)) : Simulates s p w rs where
  content := h.content
  handle fh hused := h.handle fh (hused.imp fun _ hr => ⟨by simp [hr.1], hr.2⟩)

/-- A released handle is not among those that are used. -/
theorem closed (h : Simulates s p w (.release fh :: rs)) (hord : InOrder (.release fh :: rs)) :
    Simulates { s with openFiles := Function.update s.openFiles fh none } p w rs where
  content := h.content
  handle fh' hused := by
    have hne : fh' ≠ fh := by
      rintro rfl
      obtain ⟨r, hr, hby⟩ := hused
      exact List.rel_of_pairwise_cons hord hr fh' rfl hby
    simpa [hne] using h.tail.handle fh' hused

/-- One request, where the file can be written back if it has to be. -/
theorem step (h : Simulates s p w (r :: rs)) (hr : ByWriter fh r) (hord : InOrder (r :: rs))
    (hplace : w.WritesBack fh r → CanCreate s.root p) :
    ∃ reply s', (Fuse.step r).run s = .ok reply s' ∧ Simulates s' p (w.after r) rs ∧
      (¬ w.WritesBack fh r → s'.root = s.root) := by
  have hroot : ∀ fs', (if w.dirty fh = true then Placed s.root fs' p (.file (w.buffer fh))
      else fs' = s.root) → ¬ w.dirty fh = true → fs' = s.root := by
    intro fs' hfs hclean
    rwa [if_neg hclean] at hfs
  have hcontent : ∀ fs', (if w.dirty fh = true then Placed s.root fs' p (.file (w.buffer fh))
        else fs' = s.root) →
      contentAt fs' p = .ok (if w.dirty fh = true then w.buffer fh else w.file) := by
    intro fs' hfs
    cases hdirty : w.dirty fh with
    | false =>
      obtain rfl : fs' = s.root := by simpa [hdirty] using hfs
      exact h.content
    | true =>
      have hplaced : Placed s.root fs' p (.file (w.buffer fh)) := by simpa [hdirty] using hfs
      exact hplaced.contentAt_eq
  cases hr with
  | write off data =>
    refine ⟨_, _, run_write (h.head (.write off data)) off data, ⟨h.content, fun fh' hused => ?_⟩,
      fun _ => rfl⟩
    by_cases he : fh' = fh
    · subst he
      simp [Writers.after]
    · simpa [Writers.after, he] using h.tail.handle fh' hused
  | fsync =>
    obtain ⟨fs', hrun, hback⟩ := run_fsync (fun hd => hplace ⟨hd, Or.inl rfl⟩) (h.head .fsync)
    refine ⟨_, _, hrun, ⟨hcontent fs' hback, fun fh' hused => ?_⟩,
      fun hno => hroot fs' hback fun hd => hno ⟨hd, Or.inl rfl⟩⟩
    by_cases he : fh' = fh
    · subst he
      simp [Writers.after]
    · simpa [Writers.after, he] using h.tail.handle fh' hused
  | release =>
    obtain ⟨fs', hrun, hback⟩ :=
      run_release (fun hd => hplace ⟨hd, Or.inr rfl⟩) (h.head .release)
    refine ⟨_, _, hrun, ⟨hcontent fs' hback, fun fh' hused => ?_⟩,
      fun hno => hroot fs' hback fun hd => hno ⟨hd, Or.inr rfl⟩⟩
    -- no request on this handle comes after its release
    have hne : fh' ≠ fh := by
      rintro rfl
      obtain ⟨r, hr, hby⟩ := hused
      exact List.rel_of_pairwise_cons hord hr fh' rfl hby
    simpa [Writers.after, hne] using h.tail.handle fh' hused

/-- A file that cannot be written back makes the release of a changed buffer fail, whatever
comes before it. -/
theorem release_fails (h : Simulates s p w rs) (hrs : ∀ r ∈ rs, ∃ fh, ByWriter fh r)
    (hord : InOrder rs) (hblocked : ¬ CanCreate s.root p) (hdirty : w.dirty fh = true)
    (hrel : .release fh ∈ rs) :
    ∃ rs₁ rs₂ e, rs = rs₁ ++ .release fh :: rs₂ ∧
      respond (run s rs₁) (.release fh) = .error e := by
  induction rs generalizing s w with
  | nil => simp at hrel
  | cons r rs ih =>
    obtain ⟨⟨fh', hr⟩, hrs⟩ := List.forall_mem_cons.mp hrs
    have hview := contentAt_eq_ok_iff.mp h.content
    -- a request that leaves the overlay alone and the buffer changed
    have hskip : ∀ s' w', next s r = s' → s'.root = s.root → Simulates s' p w' rs →
        w'.dirty fh = true → .release fh ∈ rs → ∃ rs₁ rs₂ e, r :: rs = rs₁ ++ .release fh :: rs₂ ∧
          respond (run s rs₁) (.release fh) = .error e := by
      rintro s' w' rfl hroot hsim hd hmem
      obtain ⟨rs₁, rs₂, e, hrs', he⟩ := ih hsim hrs hord.of_cons (hroot ▸ hblocked) hd hmem
      exact ⟨r :: rs₁, rs₂, e, by rw [hrs', List.cons_append], he⟩
    by_cases hfails : w.WritesBack fh' r
    · obtain ⟨hd, rfl | rfl⟩ := hfails
      · have hfile := h.head .fsync
        rw [hd] at hfile
        obtain ⟨e, he⟩ := run_fsync_blocked hview hblocked hfile
        have hnext : next s (.fsync fh') = s := by rw [next, finalState, he]
        exact hskip s w hnext rfl h.tail hdirty (by simpa using hrel)
      · have hfile := h.head .release
        rw [hd] at hfile
        obtain ⟨e, he⟩ := run_release_blocked hview hblocked hfile
        by_cases hsame : fh' = fh
        · subst hsame
          refine ⟨[], rs, e, rfl, ?_⟩
          change respond s _ = _
          rw [respond, he]
        · have hnext : next s (.release fh') =
              { s with openFiles := Function.update s.openFiles fh' none } := by
            rw [next, finalState, he]
          exact hskip _ w hnext rfl (h.closed hord) hdirty (by simpa [Ne.symm hsame] using hrel)
    · obtain ⟨reply, s', hrun, hsim, hroot⟩ := h.step hr hord fun hback => absurd hback hfails
      have hne : r ≠ .release fh := by
        rintro rfl
        cases hr
        exact hfails ⟨hdirty, Or.inr rfl⟩
      refine hskip s' _ (respond_eq_ok hrun).2 (hroot hfails) hsim ?_
        ((List.mem_cons.mp hrel).resolve_left hne.symm)
      cases hr with
      | write off data => by_cases he : fh = fh' <;> simp [Writers.after, he, hdirty]
      | fsync =>
        have he : fh ≠ fh' := by
          rintro rfl
          exact hfails ⟨hdirty, Or.inl rfl⟩
        simpa [Writers.after, he] using hdirty
      | release =>
        have he : fh ≠ fh' := by
          rintro rfl
          exact hne rfl
        simpa [Writers.after, he] using hdirty

/-- The requests that are left are all released, and each release succeeds. -/
theorem run (h : Simulates s p w rs) (hrs : ∀ r ∈ rs, ∃ fh, ByWriter fh r) (hord : InOrder rs)
    (hrel : AllReleased rs)
    (hok : ∀ rs₁ fh rs₂, rs = rs₁ ++ .release fh :: rs₂ →
      ∃ reply, respond (Fuse.run s rs₁) (.release fh) = .ok reply) :
    contentAt (Fuse.run s rs).root p = .ok (rs.foldl Writers.after w).file ∧
      ∀ rs₁ r rs₂, rs = rs₁ ++ r :: rs₂ → ∃ reply, respond (Fuse.run s rs₁) r = .ok reply := by
  induction rs generalizing s w with
  | nil => exact ⟨h.content, fun rs₁ r rs₂ hrs => by simp at hrs⟩
  | cons r rs ih =>
    obtain ⟨⟨fh, hr⟩, hrs'⟩ := List.forall_mem_cons.mp hrs
    -- a buffer that could not be written back would make its release fail, but all succeed
    have hplace : w.WritesBack fh r → CanCreate s.root p := by
      rintro ⟨hdirty, -⟩
      by_contra hblocked
      have hmem := hrel fh ⟨r, by simp, hr⟩
      obtain ⟨rs₁, rs₂, e, heq, he⟩ := h.release_fails hrs hord hblocked hdirty hmem
      obtain ⟨reply, hreply⟩ := hok rs₁ fh rs₂ heq
      rw [he] at hreply
      cases hreply
    obtain ⟨reply, s', hrun, hsim, -⟩ := h.step hr hord hplace
    obtain ⟨hreply, hnext⟩ := respond_eq_ok hrun
    have hrest := ih (s := s') hsim hrs' hord.of_cons (hrel.of_cons hord) fun rs₁ fh' rs₂ heq => by
      have := hok (r :: rs₁) fh' rs₂ (by rw [heq, List.cons_append])
      rwa [Fuse.run, List.foldl_cons, hnext] at this
    rw [Fuse.run, List.foldl_cons, hnext]
    refine ⟨hrest.1, fun rs₁ r' rs₂ heq => ?_⟩
    cases rs₁ with
    | nil =>
      obtain ⟨rfl, -⟩ := List.cons_eq_cons.mp heq
      exact ⟨reply, hreply⟩
    | cons r₁ rs₁ =>
      obtain ⟨rfl, heq'⟩ := List.cons_eq_cons.mp heq
      have := hrest.2 rs₁ r' rs₂ heq'
      rwa [Fuse.run, List.foldl_cons, hnext]

end Simulates

/-- What a write put into a buffer is there when no later write overlaps it. -/
theorem slice_foldl_bufferAfter (hlen : off + n ≤ a.length)
    (hdisj : ∀ off' data', .write fh off' data' ∈ rs → off + n ≤ off' ∨ off' + data'.length ≤ off) :
    slice (rs.foldl (bufferAfter fh) a) off n = slice a off n := by
  induction rs generalizing a with
  | nil => rfl
  | cons r rs ih =>
    have hrest : ∀ off' data', .write fh off' data' ∈ rs →
        off + n ≤ off' ∨ off' + data'.length ≤ off := fun off' data' h => hdisj off' data' (by simp [h])
    rw [List.foldl_cons]
    cases r with
    | write fh' off' data' =>
      by_cases he : fh' = fh
      · subst he
        rw [bufferAfter, if_pos rfl, ih (by rw [length_splice]; omega) hrest]
        exact slice_splice_of_disjoint hlen (hdisj off' data' (by simp))
      · rw [bufferAfter, if_neg he]
        exact ih hlen hrest
    | _ => exact ih hlen hrest

/-! ### Two writers -/

/-- Two handles are open for writing on a file, with any buffers, and their requests come
in any interleaving, until both have been released with success. The file then has the
buffer of the handle that wrote back last with all writes of that handle, and the content
from before if neither wrote back; so each write of that handle which it did not overwrite
itself is in the file. -/
theorem last_write_back_wins (s : Fuse Tree Tree) (p : Path) (c a₁ a₂ : Bytes) (d₁ d₂ : Bool)
    (h₁ h₂ : Fh) (hne : h₁ ≠ h₂) (hcontent : contentAt s.root p = .ok c)
    (hopen₁ : s.openFiles h₁ = some (.buffered p a₁ d₁ true))
    (hopen₂ : s.openFiles h₂ = some (.buffered p a₂ d₂ true)) (rs : List Request)
    (hrs : ∀ r ∈ rs, ByWriter h₁ r ∨ ByWriter h₂ r) (hord : InOrder rs)
    (hrel₁ : .release h₁ ∈ rs) (hrel₂ : .release h₂ ∈ rs)
    (hok : ∀ rs₁ fh rs₂, rs = rs₁ ++ .release fh :: rs₂ →
      ∃ reply, respond (run s rs₁) (.release fh) = .ok reply) :
    contentAt (run s rs).root p =
        .ok (match lastWriteBack (fun fh => if fh = h₁ then d₁ else d₂) rs with
          | none => c
          | some h => rs.foldl (bufferAfter h) (if h = h₁ then a₁ else a₂)) ∧
      (∀ rs₁ r rs₂, rs = rs₁ ++ r :: rs₂ → ∃ reply, respond (run s rs₁) r = .ok reply) ∧
      ∀ h, lastWriteBack (fun fh => if fh = h₁ then d₁ else d₂) rs = some h →
        ∀ rs₁ off data rs₂, rs = rs₁ ++ .write h off data :: rs₂ →
          (∀ off' data', .write h off' data' ∈ rs₂ →
            off + data.length ≤ off' ∨ off' + data'.length ≤ off) →
          ∃ content, contentAt (run s rs).root p = .ok content ∧
            slice content off data.length = data := by
  have hused : ∀ fh, (∃ r ∈ rs, ByWriter fh r) → fh = h₁ ∨ fh = h₂ := by
    rintro fh ⟨r, hr, hby⟩
    rcases hrs r hr with h | h <;> cases h <;> cases hby <;> simp
  have hrel : AllReleased rs := by
    rintro fh hby
    rcases hused fh hby with rfl | rfl
    · exact hrel₁
    · exact hrel₂
  have hsim : Simulates s p ⟨c, fun fh => if fh = h₁ then a₁ else a₂,
      fun fh => if fh = h₁ then d₁ else d₂⟩ rs := by
    refine ⟨hcontent, fun fh hby => ?_⟩
    rcases hused fh hby with rfl | rfl
    · simpa using hopen₁
    · simpa [hne.symm] using hopen₂
  have hrs' : ∀ r ∈ rs, ∃ fh, ByWriter fh r := fun r hr =>
    (hrs r hr).elim (fun h => ⟨h₁, h⟩) fun h => ⟨h₂, h⟩
  obtain ⟨hfile, hacked⟩ := hsim.run hrs' hord hrel hok
  rw [Writers.file_after hrs' hord hrel] at hfile
  refine ⟨hfile, hacked, ?_⟩
  rintro h hlast rs₁ off data rs₂ rfl hdisj
  rw [hlast] at hfile
  refine ⟨_, hfile, ?_⟩
  dsimp only
  -- the later writes of this handle are beside the range, and the other's are not in its buffer
  rw [List.foldl_append, List.foldl_cons, bufferAfter, if_pos rfl,
    slice_foldl_bufferAfter (by rw [length_splice]; omega) hdisj]
  exact slice_splice _ _ _

/-- The file of `twoBytes`, opened for writing twice. -/
def twoWriters : Fuse Tree Tree :=
  run twoBytes [.openInode 2 readWrite false, .openInode 2 readWrite false]

/-- Each handle writes one of the two bytes and is released. -/
def oneByteEach : List Request := [.write 1 0 [8], .write 2 1 [9], .release 1, .release 2]

theorem last_write_back_wins_twoWriters :
    contentAt (run twoWriters oneByteEach).root ["f".toList] = .ok [1, 9] := by
  refine (last_write_back_wins twoWriters ["f".toList] [1, 2] [1, 2] [1, 2] false false 1 2
    (by decide) (by decide) rfl rfl oneByteEach ?_ ?_ (by simp [oneByteEach])
    (by simp [oneByteEach]) ?_).1.trans (by decide)
  · intro r hr
    simp only [oneByteEach, List.mem_cons, List.not_mem_nil, or_false] at hr
    rcases hr with rfl | rfl | rfl | rfl
    · exact Or.inl (.write 0 [8])
    · exact Or.inr (.write 1 [9])
    · exact Or.inl .release
    · exact Or.inr .release
  · have hother : ¬ ByWriter 1 (.release 2) := by
      rintro ⟨⟩
    simpa [InOrder, oneByteEach] using hother
  · intro rs₁ fh rs₂ heq
    rcases rs₁ with _ | ⟨r₁, _ | ⟨r₂, _ | ⟨r₃, _ | ⟨r₄, rs₁⟩⟩⟩⟩ <;>
      simp only [oneByteEach, List.nil_append, List.cons_append, List.cons.injEq, reduceCtorEq,
        false_and, and_false, Request.release.injEq] at heq
    · obtain ⟨rfl, rfl, rfl, -⟩ := heq
      exact ⟨.ok, by decide⟩
    · obtain ⟨rfl, rfl, rfl, rfl, -⟩ := heq
      exact ⟨.ok, by decide⟩
    · simp at heq

/-- Two writes of one byte each, at different offsets, are acknowledged, and both handles
are released with success; the write of the first handle is not in the file. -/
theorem first_writer_lost :
    contentAt twoWriters.root ["f".toList] = .ok [1, 2] ∧
      respond twoWriters (.write 1 0 [8]) = .ok (.written 1) ∧
      respond (run twoWriters [.write 1 0 [8]]) (.write 2 1 [9]) = .ok (.written 1) ∧
      respond (run twoWriters [.write 1 0 [8], .write 2 1 [9]]) (.release 1) = .ok .ok ∧
      respond (run twoWriters [.write 1 0 [8], .write 2 1 [9], .release 1]) (.release 2) =
        .ok .ok ∧
      contentAt (run twoWriters oneByteEach).root ["f".toList] = .ok [1, 9] := by
  decide

end Fuse

end Rspacefs
