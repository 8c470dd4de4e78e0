import ApiGateway.Common.Histogram
import Mathlib.Algebra.Order.Floor.Ring
import Mathlib.Data.Rat.Floor
import Mathlib.Tactic.Linarith

/-!
# The latency histogram

`record` counts a latency in one of fourteen buckets, `percentile` scans the counts for the first bucket at
which their sum reaches `p * total`. The product is truncated: the bound that is returned has `p * total`
samples at or below it unless some bound has exactly the truncated number of them (`percentile_covers_iff`).

Counters have 64 bits in the source and are natural numbers here; latencies are recorded one at a time. The
product of `p` and the total is exact.

Reference: `include/observability/Metrics.hpp`.
-/

namespace ApiGateway.Observability

open Histogram

def uint64Max : ℕ := 2 ^ 64 - 1

/-- Bucket upper bounds in microseconds. -/
def bounds : List ℕ :=
  [100, 250, 500, 1000, 2500, 5000, 10000, 25000, 50000, 100000, 250000, 500000, 1000000, uint64Max]

structure LatencyHistogram where
  counts : List ℕ := List.replicate bounds.length 0
  total : ℕ := 0
deriving DecidableEq, Repr

namespace LatencyHistogram

def record (h : LatencyHistogram) (micros : ℕ) : LatencyHistogram :=
  let idx := lowerBound bounds micros
  let idx := if h.counts.length ≤ idx then h.counts.length - 1 else idx
  { counts := h.counts.modify idx (· + 1), total := h.total + 1 }

/-- The value of the bucket with index `i`. The last bucket has no bound of its own. -/
def bucketValue (i : ℕ) : ℕ :=
  if bounds.getD i 0 = uint64Max then bounds.getD (i - 1) 0 else bounds.getD i 0

/-- The approximate percentile in microseconds. -/
def percentile (h : LatencyHistogram) (p : ℚ) : ℕ :=
  if h.total = 0 then 0
  else
    let target := ⌊p * h.total⌋₊
    match scan target 0 h.counts with
    | some i => bucketValue i
    | none => uint64Max

/-- The histogram after some latencies have been recorded. -/
def recorded (samples : List ℕ) : LatencyHistogram := samples.foldl record {}

theorem recorded_concat (samples : List ℕ) (x : ℕ) :
    recorded (samples ++ [x]) = (recorded samples).record x := by
  rw [recorded, List.foldl_append]
  rfl

theorem bounds_sorted : bounds.Pairwise (· ≤ ·) := by decide

/-- Latencies of up to a second are counted below the last bucket. -/
theorem lowerBound_lt {x : ℕ} (hx : x ≤ 1000000) : lowerBound bounds x < bounds.length :=
  List.findIdx_lt_length_of_exists ⟨1000000, by decide, by simpa using hx⟩

/-- **What is counted.** -/
theorem recorded_eq {samples : List ℕ} (h : ∀ x ∈ samples, x ≤ 1000000) :
    recorded samples = ⟨bucketCounts bounds samples, samples.length⟩ := by
  induction samples using List.reverseRecOn with
  | nil => rw [bucketCounts_nil]; rfl
  | append_singleton samples x ih =>
    have hx : x ≤ 1000000 := h x (by simp)
    have hlt : ¬ (bucketCounts bounds samples).length ≤ lowerBound bounds x := by
      rw [length_bucketCounts, not_le]
      exact lowerBound_lt hx
    rw [recorded_concat, ih fun y hy => h y (List.mem_append_left _ hy), record,
      bucketCounts_concat, List.length_append]
    simp only [hlt, if_false]
    rfl

variable {samples : List ℕ} {p : ℚ}

/-- The truncated number of samples that the percentile asks for. -/
def target (samples : List ℕ) (p : ℚ) : ℕ := ⌊p * samples.length⌋₊

/-- **What the percentile is**: a bound with the truncated number of samples at or below it, and no higher
than any other such bound. -/
theorem percentile_spec (hne : samples ≠ []) (h : ∀ x ∈ samples, x ≤ 1000000) (hp : p ≤ 1) :
    (recorded samples).percentile p ∈ bounds ∧
      target samples p ≤ countLe samples ((recorded samples).percentile p) ∧
      ∀ b ∈ bounds, target samples p ≤ countLe samples b →
        (recorded samples).percentile p ≤ b := by
  have hlen : samples.length ≠ 0 := List.length_eq_zero_iff.not.mpr hne
  have hpercentile : (recorded samples).percentile p
      = match bounds.findIdx? fun b => decide (target samples p ≤ 0 + countLe samples b) with
        | some i => bucketValue i
        | none => uint64Max := by
    rw [recorded_eq h, percentile, if_neg hlen]
    dsimp only
    rw [scan_eq _ bounds_sorted]
    rfl
  -- all samples are at or below one second, which is the bound in front of the last one
  have htarget : target samples p ≤ countLe samples 1000000 := by
    rw [countLe_of_forall_le h]
    refine Nat.floor_le_of_le ?_
    exact mul_le_of_le_one_left (Nat.cast_nonneg _) hp
  obtain ⟨i, hi⟩ : ∃ i, (bounds.findIdx? fun b =>
      decide (target samples p ≤ 0 + countLe samples b)) = some i := by
    rw [← Option.isSome_iff_exists, List.findIdx?_isSome, List.any_eq_true]
    exact ⟨1000000, by decide, by simpa using htarget⟩
  obtain ⟨b, hb, hreach, hfirst⟩ := getElem_of_findIdx? bounds_sorted hi
  simp only [decide_eq_true_eq, zero_add] at hreach hfirst
  have hle : b ≤ 1000000 := hfirst 1000000 (by decide) htarget
  have hvalue : bucketValue i = b := by
    have hnot : b ≠ uint64Max := fun heq => absurd (heq ▸ hle) (by decide)
    rw [bucketValue, List.getD_eq_getElem?_getD, hb, Option.getD_some, if_neg hnot]
  rw [hpercentile, hi]
  simp only [hvalue]
  exact ⟨List.mem_of_getElem? hb, hreach, hfirst⟩

/-- **The percentile's share of the samples.** The value is a bucket's bound and is monotone in `p`. At least
`p * total` of the recorded values are at or below it if and only if this product is a whole number, or no
bound has exactly the truncated product of values at or below it. -/
theorem percentile_covers_iff (hne : samples ≠ []) (h : ∀ x ∈ samples, x ≤ 1000000) (hpos : 0 < p)
    (hp : p ≤ 1) :
    (recorded samples).percentile p ∈ bounds ∧
      (∀ q, p ≤ q → q ≤ 1 → (recorded samples).percentile p ≤ (recorded samples).percentile q) ∧
      (p * (recorded samples).total ≤ countLe samples ((recorded samples).percentile p) ↔
        p * samples.length = ⌊p * samples.length⌋₊ ∨
          ∀ b ∈ bounds, countLe samples b ≠ ⌊p * samples.length⌋₊) := by
  obtain ⟨hmem, hreach, hfirst⟩ := percentile_spec hne h hp
  have hnonneg : 0 ≤ p * samples.length := mul_nonneg hpos.le (Nat.cast_nonneg _)
  have htotal : (recorded samples).total = samples.length := by rw [recorded_eq h]
  refine ⟨hmem, fun q hpq hq => ?_, ?_⟩
  · obtain ⟨hmem', hreach', -⟩ := percentile_spec hne h hq
    refine hfirst _ hmem' (le_trans ?_ hreach')
    exact Nat.floor_mono (mul_le_mul_of_nonneg_right hpq (Nat.cast_nonneg _))
  · rw [htotal]
    constructor
    · intro hcovers
      by_contra hnot
      obtain ⟨hfrac, hexact⟩ := not_or.mp hnot
      simp only [not_forall, not_not] at hexact
      obtain ⟨b, hb, hcount⟩ := hexact
      -- a bound with just the truncated product is not below the value, so that the value has no more
      have hle := countLe_mono samples (hfirst b hb hcount.ge)
      rw [hcount] at hle
      exact hfrac (le_antisymm (hcovers.trans (by exact_mod_cast hle)) (Nat.floor_le hnonneg))
    · rintro (hwhole | hnone)
      · rw [hwhole]
        exact_mod_cast hreach
      · have hlt : ⌊p * samples.length⌋₊ + 1 ≤ countLe samples ((recorded samples).percentile p) :=
          lt_of_le_of_ne hreach (hnone _ hmem).symm
        calc p * samples.length ≤ ⌊p * samples.length⌋₊ + 1 := (Nat.lt_floor_add_one _).le
          _ ≤ countLe samples ((recorded samples).percentile p) := by exact_mod_cast hlt

/-- **A percentile below its sample.** The median of a single latency of a second is reported as 100
microseconds. -/
theorem percentile_below :
    (recorded [1000000]).percentile (1 / 2) = 100 ∧ countLe [1000000] 100 = 0 ∧
      (0 : ℚ) < 1 / 2 * (recorded [1000000]).total := by
  decide +kernel

/-- The median of two latencies in one bucket is that bucket's bound. -/
theorem percentile_covers_pair :
    (1 / 2 : ℚ) * (recorded [300, 400]).total
      ≤ countLe [300, 400] ((recorded [300, 400]).percentile (1 / 2)) :=
  (percentile_covers_iff (by decide) (by decide) (by norm_num) (by norm_num)).2.2.mpr
    (.inl (by decide +kernel))

end LatencyHistogram

end ApiGateway.Observability
