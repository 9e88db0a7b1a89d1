import Rspacefs.Fuse.Latency
import Rspacefs.Lib.Exposition
import Rspacefs.Lib.Codec

/-!
# The metrics text

`render_prom` of `rspacefs-fuse/src/stats.rs` writes a snapshot as metrics text. One template
writes a comment and a sample for a counter; it is used for counters whose name has a label in it
already, too. Of the mount point, which is a label of every sample, only quotes are escaped.

## Main definitions

* `StatsSnapshot` — what is exported
* `renderProm` — the text, the pieces that the source pushes one after the other

## Main results

* `renderProm_latencies` — the histograms of the text, as numbers of observations
* `not_exposes_renderProm` — no snapshot and no mount point give a well-formed text
-/

namespace Rspacefs.Fuse

open Lib Lib.Exposition

/-- The counters and gauges at one moment. -/
structure StatsSnapshot where
  uptimeSecs : UInt64
  hists : Op → LatHistSnapshot
  ops : Op → UInt64
  bytesRead : UInt64
  bytesWritten : UInt64
  passthroughOpens : UInt64
  streamingOpens : UInt64
  bufferedOpens : UInt64
  copyUps : UInt64
  copyUpBytes : UInt64
  reflinksOk : UInt64
  reflinksFallback : UInt64
  backingCacheHits : UInt64
  backingCacheMisses : UInt64
  faultsPanic : UInt64
  faultsSessionRetry : UInt64
  faultsLockPoisoned : UInt64
  faultsUnexpectedErrno : UInt64
  errorsIo : UInt64
  errorsEnoent : UInt64
  errorsOther : UInt64
  lastOpUnixMs : UInt64
  openHandles : Int64
  pivots : UInt64
  captures : UInt64

/-- The operations in the order in which they are printed, with the names printed. -/
def opEntries : List (Text × Op) :=
  [("lookup".toList, .lookup), ("getattr".toList, .getattr), ("setattr".toList, .setattr),
    ("readdir".toList, .readdir), ("mkdir".toList, .mkdir), ("rmdir".toList, .rmdir),
    ("open".toList, .open), ("read".toList, .read), ("write".toList, .write),
    ("release".toList, .release), ("create".toList, .create), ("unlink".toList, .unlink),
    ("rename".toList, .rename), ("readlink".toList, .readlink), ("symlink".toList, .symlink),
    ("getxattr".toList, .getxattr), ("listxattr".toList, .listxattr),
    ("setxattr".toList, .setxattr), ("removexattr".toList, .removexattr),
    ("fsync".toList, .fsync), ("flush".toList, .flush), ("statfs".toList, .statfs),
    ("poll".toList, .poll)]

/-- `mountpoint.replace('"', "\\\"")`. -/
def escapeMount (mountpoint : Text) : Text :=
  mountpoint.flatMap fun ch => if ch = '"' then ['\\', '"'] else [ch]

/-- `{}` of a `u64`. -/
def decimal (n : UInt64) : Text := Nat.toDigits 10 n.toNat

/-- `{}` of an `i64`. -/
def decimalSigned (n : Int64) : Text :=
  if n.toInt < 0 then '-' :: Nat.toDigits 10 n.toInt.natAbs else Nat.toDigits 10 n.toInt.natAbs

/-- The template of the `counter!` and `gauge!` macros. -/
def metric (kind : Text) (m name value help : Text) : List Text :=
  ["# HELP ".toList ++ name ++ ' ' :: help ++ ['\n'],
    "# TYPE ".toList ++ name ++ ' ' :: kind ++ ['\n'],
    name ++ "\x7bmount=\"".toList ++ m ++ "\"\x7d ".toList ++ value ++ ['\n']]

def counter (m : Text) (name : String) (value : UInt64) (help : String) : List Text :=
  metric "counter".toList m name.toList (decimal value) help.toList

def gauge (m : Text) (name : String) (value : Text) (help : String) : List Text :=
  metric "gauge".toList m name.toList value help.toList

/-- A sample of a metric that has the operation as a label. -/
def opSample (name m opName extra value : Text) : Text :=
  name ++ "\x7bmount=\"".toList ++ m ++ "\",op=\"".toList ++ opName ++ '"' :: extra ++
    "\x7d ".toList ++ value ++ ['\n']

def opCtr (m opName : Text) (value : UInt64) : Text :=
  opSample "rspacefs_ops_total".toList m opName [] (decimal value)

/-- The counters and gauges, as the pieces pushed. -/
def renderCounters (snap : StatsSnapshot) (m : Text) : List Text :=
  gauge m "rspacefs_uptime_seconds" (decimal snap.uptimeSecs)
    "seconds since rspacefs-mount started" ++
  ["# HELP rspacefs_ops_total FUSE op invocations by op name".toList ++ ['\n'],
    "# TYPE rspacefs_ops_total counter".toList ++ ['\n']] ++
  (opEntries.map fun entry => opCtr m entry.1 (snap.ops entry.2)) ++
  counter m "rspacefs_bytes_read_total" snap.bytesRead "bytes returned to clients via read()" ++
  counter m "rspacefs_bytes_written_total" snap.bytesWritten
    "bytes accepted from clients via write()" ++
  counter m "rspacefs_pivots_total" snap.pivots
    "PVC pivot-upper promotions completed via the control socket" ++
  counter m "rspacefs_captures_total" snap.captures
    "PVC capture-layer snapshots completed via the control socket" ++
  counter m "rspacefs_passthrough_opens_total" snap.passthroughOpens
    "opens served via FUSE_PASSTHROUGH (kernel-direct)" ++
  counter m "rspacefs_streaming_opens_total" snap.streamingOpens
    "opens served via daemon streaming (verified or fallback)" ++
  counter m "rspacefs_buffered_opens_total" snap.bufferedOpens
    "opens served via in-memory read-modify-write buffer (writable opens)" ++
  counter m "rspacefs_copy_ups_total" snap.copyUps "copy-ups from a lower layer into upper" ++
  counter m "rspacefs_copy_up_bytes_total" snap.copyUpBytes "bytes copied during copy-up" ++
  counter m "rspacefs_reflinks_ok_total" snap.reflinksOk
    "copy-ups that took the FICLONE reflink fast path" ++
  counter m "rspacefs_reflinks_fallback_total" snap.reflinksFallback
    "copy-ups that fell back to a byte copy" ++
  counter m "rspacefs_backing_cache_hits_total" snap.backingCacheHits "BackingId cache reuse" ++
  counter m "rspacefs_backing_cache_misses_total" snap.backingCacheMisses
    "BackingId cache miss (BACKING_OPEN ioctl issued)" ++
  counter m "rspacefs_errors_total\x7bkind=\"io\"\x7d" snap.errorsIo "EIO returned to client" ++
  counter m "rspacefs_errors_total\x7bkind=\"enoent\"\x7d" snap.errorsEnoent
    "ENOENT returned to client" ++
  counter m "rspacefs_errors_total\x7bkind=\"other\"\x7d" snap.errorsOther
    "other errno returned to client" ++
  counter m "rspacefs_faults_total\x7bkind=\"panic\"\x7d" snap.faultsPanic
    "op panics caught and contained (docs/faults.md)" ++
  counter m "rspacefs_faults_total\x7bkind=\"session_retry\"\x7d" snap.faultsSessionRetry
    "FUSE session loop retries after transient errors" ++
  counter m "rspacefs_faults_total\x7bkind=\"lock_poisoned\"\x7d" snap.faultsLockPoisoned
    "poisoned mutexes recovered" ++
  counter m "rspacefs_faults_total\x7bkind=\"unexpected_errno\"\x7d" snap.faultsUnexpectedErrno
    "unexpected errnos coerced to EIO" ++
  gauge m "rspacefs_open_handles" (decimalSigned snap.openHandles)
    "current file handles in the open table" ++
  gauge m "rspacefs_last_op_unix_ms" (decimal snap.lastOpUnixMs)
    "epoch-ms timestamp of the last op (liveness)" ++
  ["# HELP rspacefs_op_latency_microseconds Per-op latency distribution".toList ++ ['\n'],
    "# TYPE rspacefs_op_latency_microseconds histogram".toList ++ ['\n'],
    "# HELP rspacefs_op_in_flight Currently-executing op count by op".toList ++ ['\n'],
    "# TYPE rspacefs_op_in_flight gauge".toList ++ ['\n']]

/-- The lines of one histogram, for the numbers that stand in them. -/
def histText (m opName : Text) (buckets : List (UInt64 × Nat)) (count sum : Nat)
    (inFlight : Int64) : List Text :=
  (buckets.map fun bucket =>
    opSample "rspacefs_op_latency_microseconds_bucket".toList m opName
      (",le=\"".toList ++ decimal bucket.1 ++ ['"']) (Nat.toDigits 10 bucket.2)) ++
  [opSample "rspacefs_op_latency_microseconds_bucket".toList m opName ",le=\"+Inf\"".toList
      (Nat.toDigits 10 count),
    opSample "rspacefs_op_latency_microseconds_count".toList m opName [] (Nat.toDigits 10 count),
    opSample "rspacefs_op_latency_microseconds_sum".toList m opName [] (Nat.toDigits 10 sum),
    opSample "rspacefs_op_in_flight".toList m opName [] (decimalSigned inFlight)]

/-- The lines of one histogram; the buckets are added up on the way. -/
def renderHist (m opName : Text) (h : LatHistSnapshot) : List Text :=
  histText m opName
    ((cumulative 0 latBucketsUs h.buckets).map fun bucket => (bucket.1, bucket.2.toNat))
    h.count.toNat h.sumUs.toNat h.inFlight

/-- Render a snapshot as metrics text. -/
def renderProm (snap : StatsSnapshot) (mountpoint : Text) : Text :=
  (renderCounters snap (escapeMount mountpoint) ++
    opEntries.flatMap fun entry =>
      renderHist (escapeMount mountpoint) entry.1 (snap.hists entry.2)).flatten

/-- What the lines of a histogram are to say: how many of the latencies observed are at most each
bound, how many there are, and their sum. -/
def exactHist (m opName : Text) (events : List ScopeEvent) : List Text :=
  histText m opName (latBucketsUs.map fun bound => (bound, atMost (observed events) bound))
    (observed events).length ((observed events).map UInt64.toNat).sum
    (LatHist.new.run events).inFlight

/-! ### Histograms -/

theorem renderHist_run (m opName : Text) (events : List ScopeEvent)
    (hcount : (observed events).length < 2 ^ 64)
    (hsum : ((observed events).map UInt64.toNat).sum < 2 ^ 64) :
    renderHist m opName (LatHist.new.run events).snapshot = exactHist m opName events := by
  have hbuckets : (cumulative 0 latBucketsUs (LatHist.new.run events).snapshot.buckets).map
      (fun bucket => (bucket.1, bucket.2.toNat)) =
        latBucketsUs.map fun bound => (bound, atMost (observed events) bound) := by
    have hsums : cumulative 0 latBucketsUs (LatHist.new.run events).snapshot.buckets = _ :=
      LatHist.run_cumulative events
    rw [hsums, List.map_map]
    apply List.map_congr_left
    intro bound _
    have hle := atMost_le_length (observed events) bound
    exact Prod.ext rfl (UInt64.toNat_ofNat_of_lt' (Nat.lt_of_le_of_lt hle hcount))
  have hlength : (LatHist.new.run events).snapshot.count.toNat = (observed events).length := by
    have hrun : (LatHist.new.run events).snapshot.count = _ := LatHist.run_count events
    rw [hrun, UInt64.toNat_ofNat_of_lt' hcount]
  have htotal : (LatHist.new.run events).snapshot.sumUs.toNat =
      ((observed events).map UInt64.toNat).sum := by
    have hrun : (LatHist.new.run events).snapshot.sumUs = _ := LatHist.run_sumUs events
    rw [hrun, UInt64.toNat_ofNat_of_lt' hsum]
  rw [renderHist, hbuckets, hlength, htotal]
  rfl

theorem pairwise_atMost (obs : List UInt64) :
    (latBucketsUs.map (atMost obs)).Pairwise (· ≤ ·) := by
  rw [List.pairwise_map]
  apply pairwise_latBucketsUs.imp
  intro bound later h
  exact atMost_mono h obs

/-- Below the width of the counters the histograms printed are exact: the buckets count the
latencies up to their bounds, and grow up to the count. -/
theorem renderProm_latencies (snap : StatsSnapshot) (mountpoint : Text)
    (events : Op → List ScopeEvent)
    (hhists : ∀ op, snap.hists op = (LatHist.new.run (events op)).snapshot)
    (hcount : ∀ op, (observed (events op)).length < 2 ^ 64)
    (hsum : ∀ op, ((observed (events op)).map UInt64.toNat).sum < 2 ^ 64) :
    renderProm snap mountpoint =
        (renderCounters snap (escapeMount mountpoint) ++
          opEntries.flatMap fun entry =>
            exactHist (escapeMount mountpoint) entry.1 (events entry.2)).flatten ∧
      ∀ op, (latBucketsUs.map (atMost (observed (events op)))).Pairwise (· ≤ ·) ∧
        ∀ bound ∈ latBucketsUs,
          atMost (observed (events op)) bound ≤ (observed (events op)).length := by
  constructor
  · unfold renderProm
    congr 3
    funext entry
    rw [hhists, renderHist_run _ _ _ (hcount entry.2) (hsum entry.2)]
  · intro op
    exact ⟨pairwise_atMost _, fun bound _ => atMost_le_length _ bound⟩

/-- The snapshot of a daemon that has just started, but for its histograms. -/
def StatsSnapshot.started (events : Op → List ScopeEvent) : StatsSnapshot :=
  ⟨0, fun op => (LatHist.new.run (events op)).snapshot, fun _ => 0, 0, 0, 0, 0, 0, 0, 0, 0, 0, 0, 0,
    0, 0, 0, 0, 0, 0, 0, 0, 0, 0, 0⟩

/-- Two lookups, of 40 and 900 microseconds. -/
def twoLookups (op : Op) : List ScopeEvent :=
  if op = .lookup then [.new, .drop 40, .new, .drop 900] else []

theorem renderProm_latencies_twoLookups :
    renderProm (.started twoLookups) "/mnt/test".toList =
        (renderCounters (.started twoLookups) (escapeMount "/mnt/test".toList) ++
          opEntries.flatMap fun entry =>
            exactHist (escapeMount "/mnt/test".toList) entry.1 (twoLookups entry.2)).flatten ∧
      ∀ op, (latBucketsUs.map (atMost (observed (twoLookups op)))).Pairwise (· ≤ ·) ∧
        ∀ bound ∈ latBucketsUs,
          atMost (observed (twoLookups op)) bound ≤ (observed (twoLookups op)).length :=
  renderProm_latencies (.started twoLookups) "/mnt/test".toList twoLookups (fun _ => rfl)
    (by intro op; cases op <;> decide) (by intro op; cases op <;> decide)

theorem observed_replicate (n : Nat) (us : UInt64) :
    observed (List.replicate n (.drop us)) = List.replicate n us := by
  simp [observed]

theorem sum_observed_replicate (n : Nat) :
    ((observed (List.replicate n (.drop 0))).map UInt64.toNat).sum = 0 := by
  rw [observed_replicate]
  simp

/-- As many operations without any latency as the counters can tell apart, and one more, are
printed as none. -/
theorem renderHist_ne_exactHist {n : Nat} (hpos : 0 < n) (hwrap : n % 2 ^ 64 = 0)
    (m opName : Text) :
    renderHist m opName (LatHist.new.run (List.replicate n (.drop 0))).snapshot ≠
      exactHist m opName (List.replicate n (.drop 0)) := by
  have hobserved := observed_replicate n 0
  have hall : atMost (List.replicate n 0) 50 = n := by
    rw [atMost, List.countP_replicate]
    rfl
  have hsums : cumulative 0 latBucketsUs
      (LatHist.new.run (List.replicate n (.drop 0))).snapshot.buckets = _ :=
    LatHist.run_cumulative _
  have hzero : UInt64.ofNat n = 0 := by
    rw [← UInt64.toNat_inj, UInt64.toNat_ofNat']
    exact hwrap
  intro heq
  rw [renderHist, exactHist, hsums, hobserved] at heq
  -- The first line is for the first bound, 50.
  have hfirst : opSample "rspacefs_op_latency_microseconds_bucket".toList m opName
        (",le=\"".toList ++ decimal 50 ++ ['"'])
        (Nat.toDigits 10 (UInt64.ofNat (atMost (List.replicate n 0) 50)).toNat) =
      opSample "rspacefs_op_latency_microseconds_bucket".toList m opName
        (",le=\"".toList ++ decimal 50 ++ ['"'])
        (Nat.toDigits 10 (atMost (List.replicate n 0) 50)) :=
    (List.cons.inj heq).1
  rw [hall, hzero] at hfirst
  have hdigits := List.append_cancel_left (List.append_cancel_right hfirst)
  have hnone := toDigits_injective hdigits
  exact absurd hnone.symm (Nat.pos_iff_ne_zero.mp hpos)

theorem renderHist_wraps :
    ((observed (List.replicate (2 ^ 64) (.drop 0))).map UInt64.toNat).sum < 2 ^ 64 ∧
      renderHist "/mnt/test".toList "lookup".toList
          (LatHist.new.run (List.replicate (2 ^ 64) (.drop 0))).snapshot ≠
        exactHist "/mnt/test".toList "lookup".toList (List.replicate (2 ^ 64) (.drop 0)) := by
  constructor
  · rw [sum_observed_replicate]
    decide
  · exact renderHist_ne_exactHist (by decide) (by decide) _ _

/-! ### The lines -/

theorem allTerminated_metric (kind m name value help : Text) :
    AllTerminated (metric kind m name value help) := by
  unfold metric
  rw [allTerminated_cons, allTerminated_cons, allTerminated_cons]
  exact ⟨terminated_newline _, terminated_newline _, terminated_newline _, allTerminated_nil⟩

theorem allTerminated_counter (m : Text) (name : String) (value : UInt64) (help : String) :
    AllTerminated (counter m name value help) := allTerminated_metric _ _ _ _ _

theorem allTerminated_gauge (m : Text) (name : String) (value : Text) (help : String) :
    AllTerminated (gauge m name value help) := allTerminated_metric _ _ _ _ _

theorem allTerminated_opCtr (m : Text) (ops : Op → UInt64) :
    AllTerminated (opEntries.map fun entry => opCtr m entry.1 (ops entry.2)) := by
  intro piece hmem
  obtain ⟨entry, -, rfl⟩ := List.mem_map.mp hmem
  exact terminated_newline _

theorem allTerminated_renderCounters (snap : StatsSnapshot) (m : Text) :
    AllTerminated (renderCounters snap m) := by
  unfold renderCounters
  simp only [allTerminated_append, allTerminated_counter, allTerminated_gauge, allTerminated_opCtr,
    allTerminated_cons, terminated_newline, allTerminated_nil, and_self]

theorem allTerminated_renderHist (m opName : Text) (h : LatHistSnapshot) :
    AllTerminated (renderHist m opName h) := by
  apply allTerminated_append.mpr
  constructor
  · intro piece hmem
    obtain ⟨bucket, -, rfl⟩ := List.mem_map.mp hmem
    exact terminated_newline _
  · rw [allTerminated_cons, allTerminated_cons, allTerminated_cons, allTerminated_cons]
    exact ⟨terminated_newline _, terminated_newline _, terminated_newline _,
      terminated_newline _, allTerminated_nil⟩

theorem lines_renderProm (snap : StatsSnapshot) (mountpoint : Text) :
    lines (renderProm snap mountpoint) =
      (renderCounters snap (escapeMount mountpoint)).flatMap lines ++
        opEntries.flatMap fun entry =>
          (renderHist (escapeMount mountpoint) entry.1 (snap.hists entry.2)).flatMap lines := by
  unfold renderProm
  rw [lines_flatten, List.flatMap_append, List.flatMap_assoc]
  apply allTerminated_append.mpr
  constructor
  · exact allTerminated_renderCounters snap _
  · intro piece hmem
    obtain ⟨entry, -, hpiece⟩ := List.mem_flatMap.mp hmem
    exact allTerminated_renderHist _ _ _ piece hpiece

/-- The comment about the errors of one kind, whose name has the kind in it. -/
def errorsIoHelp : Text :=
  "# HELP ".toList ++ "rspacefs_errors_total\x7bkind=\"io\"\x7d".toList ++
    ' ' :: "EIO returned to client".toList

theorem parseLine_errorsIoHelp : parseLine errorsIoHelp = none := by decide

theorem errorsIoHelp_mem_lines (snap : StatsSnapshot) (mountpoint : Text) :
    errorsIoHelp ∈ lines (renderProm snap mountpoint) := by
  have hpiece : errorsIoHelp ++ ['\n'] ∈ renderCounters snap (escapeMount mountpoint) := by
    -- Nine families of the source come behind this one.
    iterate 9 apply List.mem_append_left
    apply List.mem_append_right
    exact List.mem_cons_self
  have hline : lines (errorsIoHelp ++ ['\n']) = [errorsIoHelp] :=
    lines_append_newline (by decide) []
  rw [lines_renderProm]
  apply List.mem_append_left
  apply List.mem_flatMap.mpr
  refine ⟨_, hpiece, ?_⟩
  rw [hline]
  exact List.mem_singleton_self _

theorem not_wellFormed_renderProm (snap : StatsSnapshot) (mountpoint : Text) :
    ¬ ∀ line ∈ lines (renderProm snap mountpoint), parseLine line ≠ none := by
  intro h
  exact h _ (errorsIoHelp_mem_lines snap mountpoint) parseLine_errorsIoHelp

/-- No snapshot and no mount point give a well-formed text. -/
theorem not_exposes_renderProm (snap : StatsSnapshot) (mountpoint : Text) :
    ¬ Exposes (renderProm snap mountpoint) "mount".toList mountpoint := by
  intro h
  exact not_wellFormed_renderProm snap mountpoint h.wellFormed

theorem not_exposes_renderProm_started :
    ¬ Exposes (renderProm (.started fun _ => []) "/mnt/test".toList) "mount".toList
      "/mnt/test".toList := by
  intro h
  exact not_wellFormed_renderProm _ _ h.wellFormed

end Rspacefs.Fuse
