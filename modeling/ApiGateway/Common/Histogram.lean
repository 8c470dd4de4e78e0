import Mathlib.Algebra.Order.Floor.Semiring
import Mathlib.Data.List.Induction
import Mathlib.Data.List.Sort
import Mathlib.Tactic.Common

/-!
# Histograms

Samples are counted in buckets that are given by an ascending list of upper bounds. A bucket has the samples
up to its bound that are above the bound in front of it, so that adding up the counts gives the number of
samples up to a bound. A scan for the first bucket at which the sum reaches a target therefore finds the
first bound with that many samples at or below it (`scan_eq`).
-/

namespace Histogram

/-- `std::lower_bound`: the index of the first bound that is not below the sample. -/
def lowerBound (bounds : List ℕ) (x : ℕ) : ℕ := bounds.findIdx fun b => decide (x ≤ b)

/-- How many samples are at or below a bound. -/
def countLe (samples : List ℕ) (b : ℕ) : ℕ := samples.countP fun x => decide (x ≤ b)

/-- The counts of all buckets. -/
def bucketCounts : List ℕ → List ℕ → List ℕ
  | [], _ => []
  | b :: bounds, samples => countLe samples b :: bucketCounts bounds (samples.filter (b < ·))

@[simp] theorem length_bucketCounts (bounds samples : List ℕ) :
    (bucketCounts bounds samples).length = bounds.length := by
  induction bounds generalizing samples with
  | nil => rfl
  | cons b bounds ih => rw [bucketCounts, List.length_cons, ih, List.length_cons]

theorem bucketCounts_nil (bounds : List ℕ) :
    bucketCounts bounds [] = List.replicate bounds.length 0 := by
  induction bounds with
  | nil => rfl
  | cons b bounds ih => rw [bucketCounts, List.filter_nil, ih]; rfl

/-- One more sample is counted in the bucket that `lowerBound` finds. -/
theorem bucketCounts_concat (bounds samples : List ℕ) (x : ℕ) :
    bucketCounts bounds (samples ++ [x])
      = (bucketCounts bounds samples).modify (lowerBound bounds x) (· + 1) := by
  induction bounds generalizing samples with
  | nil => rfl
  | cons b bounds ih =>
    rw [bucketCounts, bucketCounts, List.filter_append, lowerBound, List.findIdx_cons]
    by_cases hx : x ≤ b
    · simp [hx, countLe, not_lt.mpr hx]
    · have hlt : b < x := not_le.mp hx
      simp only [hx, decide_false, cond_false, List.modify_succ_cons, countLe, List.countP_append,
        List.countP_singleton, hlt, decide_true, List.filter_cons_of_pos, List.filter_nil]
      rw [ih, lowerBound]
      simp

theorem countLe_mono (samples : List ℕ) {b b' : ℕ} (h : b ≤ b') :
    countLe samples b ≤ countLe samples b' := by
  refine List.countP_mono_left fun x _ hx => ?_
  rw [decide_eq_true_eq] at hx ⊢
  exact hx.trans h

theorem countLe_of_forall_le {samples : List ℕ} {b : ℕ} (h : ∀ x ∈ samples, x ≤ b) :
    countLe samples b = samples.length :=
  List.countP_eq_length.mpr fun x hx => by simpa using h x hx

/-- The samples up to a bound are those up to a lower one, and those above it. -/
theorem countLe_eq_add (samples : List ℕ) {b b' : ℕ} (h : b ≤ b') :
    countLe samples b' = countLe samples b + countLe (samples.filter (b < ·)) b' := by
  induction samples with
  | nil => rfl
  | cons x samples ih =>
    simp only [countLe, List.countP_cons, List.filter_cons] at ih ⊢
    by_cases hx : x ≤ b
    · have hx' : x ≤ b' := hx.trans h
      have hnot : ¬ b < x := not_lt.mpr hx
      simp only [hx, hx', hnot, decide_true, decide_false, if_true, ih]
      simp
      omega
    · have hlt : b < x := not_le.mp hx
      simp only [hx, hlt, decide_true, decide_false, if_true, List.countP_cons, ih]
      simp
      omega

/-- Add up the counts to the first bucket at which the sum reaches the target. -/
def scan (target : ℕ) : ℕ → List ℕ → Option ℕ
  | _, [] => none
  | cumulative, count :: counts =>
    if target ≤ cumulative + count then some 0
    else (scan target (cumulative + count) counts).map (· + 1)

theorem findIdx?_congr {α : Type*} {p q : α → Bool} {l : List α} (h : ∀ x ∈ l, p x = q x) :
    l.findIdx? p = l.findIdx? q := by
  induction l with
  | nil => rfl
  | cons x l ih =>
    obtain ⟨hx, hl⟩ := List.forall_mem_cons.mp h
    rw [List.findIdx?_cons, List.findIdx?_cons, hx, ih hl]

/-- **The scan finds the first bound with enough samples at or below it.** -/
theorem scan_eq (target : ℕ) {bounds : List ℕ} (hsorted : bounds.Pairwise (· ≤ ·))
    (cumulative : ℕ) (samples : List ℕ) :
    scan target cumulative (bucketCounts bounds samples)
      = bounds.findIdx? fun b => decide (target ≤ cumulative + countLe samples b) := by
  induction bounds generalizing cumulative samples with
  | nil => rfl
  | cons b bounds ih =>
    obtain ⟨hb, hrest⟩ := List.pairwise_cons.mp hsorted
    rw [bucketCounts, scan, List.findIdx?_cons, ih hrest]
    simp only [decide_eq_true_eq]
    congr 2
    refine findIdx?_congr fun b' hb' => ?_
    rw [countLe_eq_add samples (hb b' hb'), Nat.add_assoc]

/-- What the first bound with enough samples is: it has enough, and is no higher than any other that has. -/
theorem getElem_of_findIdx? {bounds : List ℕ} (hsorted : bounds.Pairwise (· ≤ ·)) {p : ℕ → Bool}
    {i : ℕ} (h : bounds.findIdx? p = some i) :
    ∃ b, bounds[i]? = some b ∧ p b = true ∧ ∀ b' ∈ bounds, p b' = true → b ≤ b' := by
  obtain ⟨hi, hp, hfirst⟩ := List.findIdx?_eq_some_iff_getElem.mp h
  refine ⟨bounds[i], List.getElem?_eq_getElem hi, hp, fun b' hb' hp' => ?_⟩
  obtain ⟨j, hj, rfl⟩ := List.getElem_of_mem hb'
  rcases lt_trichotomy j i with hlt | rfl | hlt
  · exact absurd hp' (hfirst j hlt)
  · exact le_rfl
  · exact List.pairwise_iff_getElem.mp hsorted i j hi hj hlt

end Histogram
