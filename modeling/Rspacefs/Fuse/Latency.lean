import Rspacefs.Fuse.Recent
import Mathlib.Data.UInt

/-!
# Latency histograms

`LatHist` of `rspacefs-fuse/src/stats.rs`. An observation goes into the first bucket whose bound
it does not exceed, into the count and into the sum; the buckets are added up when they are
rendered. All counters are 64-bit and wrap.

## Main definitions

* `LatHist` — the counters, with `observe` and `snapshot`
* `ScopeEvent` — an operation begins, or ends after some time
* `cumulative` — the sums that are printed

## Main results

* `LatHist.run_cumulative` — the sums count the observations up to each bound
* `LatHist.run_count`, `LatHist.run_sumUs` — the count and the sum
-/

namespace Rspacefs.Fuse

/-- Latency-histogram bucket upper bounds in microseconds. -/
def latBucketsUs : List UInt64 :=
  [50, 100, 250, 500, 1000, 2500, 5000, 10000, 25000, 50000, 100000, 250000, 500000,
    1000000, 2500000, 5000000]

def latN : Nat := 16

/-- Latency histogram for one operation; `buckets` has one counter for each bound. -/
structure LatHist where
  buckets : List UInt64
  count : UInt64
  sumUs : UInt64
  inFlight : Int64
  deriving DecidableEq, Repr

/-- What a load of every counter gives. -/
structure LatHistSnapshot where
  buckets : List UInt64
  count : UInt64
  sumUs : UInt64
  inFlight : Int64
  deriving DecidableEq, Repr

/-- Count `us` in the bucket of the first bound that it does not exceed, if there is one. -/
def bump (us : UInt64) : List UInt64 → List UInt64 → List UInt64
  | bound :: bounds, n :: buckets =>
    if us ≤ bound then (n + 1) :: buckets else n :: bump us bounds buckets
  | _, buckets => buckets

namespace LatHist

def new : LatHist := ⟨List.replicate latN 0, 0, 0, 0⟩

/-- Record one observation. -/
def observe (h : LatHist) (us : UInt64) : LatHist :=
  { h with
    buckets := bump us latBucketsUs h.buckets
    count := h.count + 1
    sumUs := h.sumUs + us }

def snapshot (h : LatHist) : LatHistSnapshot := ⟨h.buckets, h.count, h.sumUs, h.inFlight⟩

end LatHist

/-- What an `OwnedOpScope` does to the histogram of its operation: it is made when the operation
begins, and dropped when the reply is sent. -/
inductive ScopeEvent
  | new
  | drop (elapsedUs : UInt64)
  deriving DecidableEq, Repr

namespace LatHist

def apply (h : LatHist) : ScopeEvent → LatHist
  | .new => { h with inFlight := h.inFlight + 1 }
  | .drop elapsedUs => { h.observe elapsedUs with inFlight := (h.observe elapsedUs).inFlight - 1 }

def run (h : LatHist) (events : List ScopeEvent) : LatHist := events.foldl apply h

end LatHist

/-- The latencies observed, in order. -/
def observed (events : List ScopeEvent) : List UInt64 :=
  events.filterMap fun
    | .new => none
    | .drop elapsedUs => some elapsedUs

/-- Each bound with the sum of the buckets up to it; `sum` is that of the buckets before. -/
def cumulative (sum : UInt64) : List UInt64 → List UInt64 → List (UInt64 × UInt64)
  | bound :: bounds, n :: buckets => (bound, sum + n) :: cumulative (sum + n) bounds buckets
  | _, _ => []

/-- How many of the observations are at most `bound`. -/
def atMost (obs : List UInt64) (bound : UInt64) : Nat := obs.countP (· ≤ bound)

/-- What the buckets count: the observations that no bound before is enough for. -/
def firstFit : List UInt64 → List UInt64 → List Nat
  | [], _ => []
  | bound :: bounds, obs => atMost obs bound :: firstFit bounds (obs.filter fun us => ¬us ≤ bound)

variable {bounds obs : List UInt64}

/-! ### One observation -/

theorem atMost_append (obs obs' : List UInt64) (bound : UInt64) :
    atMost (obs ++ obs') bound = atMost obs bound + atMost obs' bound := List.countP_append

/-- An observation moves one bucket on, the one it fits first. -/
theorem bump_firstFit (us : UInt64) (bounds obs : List UInt64) :
    bump us bounds ((firstFit bounds obs).map UInt64.ofNat) =
      (firstFit bounds (obs ++ [us])).map UInt64.ofNat := by
  induction bounds generalizing obs with
  | nil => rfl
  | cons bound bounds ih =>
    rw [firstFit, firstFit, List.map_cons, List.map_cons, bump, atMost_append,
      List.filter_append]
    by_cases hfits : us ≤ bound
    · have hone : atMost [us] bound = 1 := by simp [atMost, hfits]
      have hnone : [us].filter (fun us => decide ¬us ≤ bound) = [] := by simp [hfits]
      rw [if_pos hfits, hone, hnone, List.append_nil, UInt64.ofNat_add]
      rfl
    · have hzero : atMost [us] bound = 0 := by simp [atMost, hfits]
      have hrest : [us].filter (fun us => decide ¬us ≤ bound) = [us] :=
        List.filter_cons_of_pos (decide_eq_true hfits)
      rw [if_neg hfits, hzero, hrest, ih, Nat.add_zero]

/-! ### The buckets added up -/

/-- What is at most a bound fits it first, or a bound before it. -/
theorem atMost_eq_add {bound later : UInt64} (h : bound ≤ later) (obs : List UInt64) :
    atMost obs later =
      atMost obs bound + atMost (obs.filter fun us => ¬us ≤ bound) later := by
  unfold atMost
  rw [List.countP_filter, List.countP_eq_countP_filter_add obs _ (· ≤ bound),
    List.countP_filter, List.countP_filter]
  congr 1
  · apply List.countP_congr
    intro us _
    constructor
    · intro hboth
      simp only [Bool.and_eq_true, decide_eq_true_eq] at hboth
      exact decide_eq_true hboth.2
    · intro hfits
      have hfits := of_decide_eq_true hfits
      simp only [Bool.and_eq_true, decide_eq_true_eq]
      exact ⟨UInt64.le_trans hfits h, hfits⟩
  · apply List.countP_congr
    intro us _
    simp

theorem cumulative_firstFit (hsorted : bounds.Pairwise (· ≤ ·)) (obs : List UInt64) (sum : Nat) :
    cumulative (UInt64.ofNat sum) bounds ((firstFit bounds obs).map UInt64.ofNat) =
      bounds.map fun bound => (bound, UInt64.ofNat (sum + atMost obs bound)) := by
  induction bounds generalizing obs sum with
  | nil => rfl
  | cons bound bounds ih =>
    obtain ⟨hfirst, hrest⟩ := List.pairwise_cons.mp hsorted
    rw [firstFit, List.map_cons, cumulative, ← UInt64.ofNat_add, ih hrest, List.map_cons]
    congr 1
    apply List.map_congr_left
    intro later hlater
    rw [atMost_eq_add (hfirst later hlater) obs, Nat.add_assoc]

theorem pairwise_latBucketsUs : latBucketsUs.Pairwise (· ≤ ·) := by decide

/-! ### Any number of observations -/

/-- The counters hold the observations, up to their width. -/
structure LatHist.Counts (h : LatHist) (obs : List UInt64) : Prop where
  buckets : h.buckets = (firstFit latBucketsUs obs).map UInt64.ofNat
  count : h.count = UInt64.ofNat obs.length
  sumUs : h.sumUs = UInt64.ofNat (obs.map UInt64.toNat).sum

namespace LatHist

variable {h : LatHist}

theorem counts_new : new.Counts [] where
  buckets := rfl
  count := rfl
  sumUs := rfl

theorem Counts.observe (hcounts : h.Counts obs) (us : UInt64) :
    (h.observe us).Counts (obs ++ [us]) where
  buckets := by
    change bump us latBucketsUs h.buckets = _
    rw [hcounts.buckets, bump_firstFit]
  count := by
    change h.count + 1 = _
    rw [hcounts.count, List.length_append, UInt64.ofNat_add]
    rfl
  sumUs := by
    change h.sumUs + us = _
    rw [hcounts.sumUs, List.map_append, List.sum_append, UInt64.ofNat_add]
    simp

theorem Counts.apply (hcounts : h.Counts obs) (event : ScopeEvent) :
    (h.apply event).Counts (obs ++ observed [event]) := by
  cases event with
  | new =>
    have hnone : observed [.new] = [] := rfl
    rw [hnone, List.append_nil]
    exact ⟨hcounts.buckets, hcounts.count, hcounts.sumUs⟩
  | drop elapsedUs =>
    have hnext := hcounts.observe elapsedUs
    exact ⟨hnext.buckets, hnext.count, hnext.sumUs⟩

theorem Counts.run (hcounts : h.Counts obs) (events : List ScopeEvent) :
    (h.run events).Counts (obs ++ observed events) := by
  induction events generalizing h obs with
  | nil =>
    have hnone : observed [] = [] := rfl
    rw [hnone, List.append_nil]
    exact hcounts
  | cons event events ih =>
    have hsplit : observed (event :: events) = observed [event] ++ observed events :=
      List.filterMap_append (l := [event])
    rw [hsplit, ← List.append_assoc]
    exact ih (hcounts.apply event)

variable (events : List ScopeEvent)

/-- The sums count the observations up to each bound. -/
theorem run_cumulative :
    cumulative 0 latBucketsUs (new.run events).buckets =
      latBucketsUs.map fun bound => (bound, UInt64.ofNat (atMost (observed events) bound)) := by
  rw [(counts_new.run events).buckets, List.nil_append]
  have hsums := cumulative_firstFit pairwise_latBucketsUs (observed events) 0
  simp only [Nat.zero_add] at hsums
  exact hsums

theorem run_count : (new.run events).count = UInt64.ofNat (observed events).length :=
  (counts_new.run events).count

theorem run_sumUs :
    (new.run events).sumUs = UInt64.ofNat ((observed events).map UInt64.toNat).sum :=
  (counts_new.run events).sumUs

end LatHist

/-- A larger bound has no fewer observations. -/
theorem atMost_mono {bound later : UInt64} (h : bound ≤ later) (obs : List UInt64) :
    atMost obs bound ≤ atMost obs later := by
  rw [atMost_eq_add h obs]
  exact Nat.le_add_right _ _

theorem atMost_le_length (obs : List UInt64) (bound : UInt64) : atMost obs bound ≤ obs.length :=
  List.countP_le_length

end Rspacefs.Fuse
