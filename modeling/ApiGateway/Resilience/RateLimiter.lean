import ApiGateway.Common.Bytes
import ApiGateway.Common.Reactive
import Mathlib.Algebra.Order.Field.Rat
import Mathlib.Data.Finmap
import Mathlib.Tactic.Linarith
import Mathlib.Tactic.Ring

/-!
# The rate limiter

One token bucket for each client key. A call reads the clock first and takes the lock afterwards, so that
the readings of calls in lock order are in no order at all: a call is given its reading. Token counts are
doubles in the source and rationals here; the clock counts nanoseconds.

A bucket never gets more tokens than the time since the last call brings, be it negative. Over a window
of calls this telescopes (`Bounded`), which bounds what is admitted (`admitted_le`).

Reference: `include/resilience/RateLimiter.hpp`.
-/

namespace ApiGateway.Resilience

open Str

/-- A duration in seconds. -/
def seconds (ticks : ℤ) : ℚ := ticks / 10 ^ 9

structure Bucket where
  tokens : ℚ := 0
  lastRefill : ℤ := 0
deriving DecidableEq, Repr

structure TokenBucketRateLimiter where
  capacity : ℚ
  refillPerSecond : ℚ
  buckets : Finmap fun _ : Bytes => Bucket := ∅

/-- A new bucket is full; it is known by the zero time point. -/
def Bucket.refill (b : Bucket) (capacity refillPerSecond : ℚ) (now : ℤ) : Bucket :=
  if b.lastRefill = 0 then { tokens := capacity, lastRefill := now }
  else
    { tokens := min capacity (b.tokens + seconds (now - b.lastRefill) * refillPerSecond)
      lastRefill := now }

def Bucket.consume (b : Bucket) (cost : ℚ) : Bool × Bucket :=
  if cost ≤ b.tokens then (true, { b with tokens := b.tokens - cost }) else (false, b)

namespace TokenBucketRateLimiter

/-- The bucket of a key; `buckets_[key]` makes one if there is none. -/
def bucket (l : TokenBucketRateLimiter) (key : Bytes) : Bucket := (l.buckets.lookup key).getD {}

/-- `allow` with the clock reading `now`. -/
def allow (l : TokenBucketRateLimiter) (key : Bytes) (cost : ℚ) (now : ℤ) :
    Bool × TokenBucketRateLimiter :=
  let r := ((l.bucket key).refill l.capacity l.refillPerSecond now).consume cost
  (r.1, { l with buckets := l.buckets.insert key r.2 })

end TokenBucketRateLimiter

/-- A call of `allow`, with the reading it has taken. -/
structure AllowCall where
  key : Bytes
  cost : ℚ := 1
  now : ℤ
deriving DecidableEq, Repr

/-- A call and its result. -/
structure Decision where
  call : AllowCall
  admitted : Bool
deriving DecidableEq, Repr

/-- A call in its critical section, as a step that is logged. -/
def allowStep (l : TokenBucketRateLimiter) (call : AllowCall) :
    TokenBucketRateLimiter × List Decision :=
  let r := l.allow call.key call.cost call.now
  (r.2, [⟨call, r.1⟩])

/-- The cost admitted for a key. -/
def spent (key : Bytes) (log : List Decision) : ℚ :=
  ((log.filter fun d => d.admitted ∧ d.call.key = key).map (·.call.cost)).sum

/-! ## One call -/

variable {capacity refillPerSecond : ℚ} {l : TokenBucketRateLimiter} {key : Bytes}

theorem Bucket.tokens_refill_le_capacity (b : Bucket) (now : ℤ) :
    (b.refill capacity refillPerSecond now).tokens ≤ capacity := by
  unfold refill
  split
  · exact le_rfl
  · exact min_le_left _ _

/-- A bucket in use gets what the time since the last call brings, or less. -/
theorem Bucket.tokens_refill_le {b : Bucket} (hused : b.lastRefill ≠ 0)
    (capacity refillPerSecond : ℚ) (now : ℤ) :
    (b.refill capacity refillPerSecond now).tokens
      ≤ b.tokens + seconds (now - b.lastRefill) * refillPerSecond := by
  rw [refill, if_neg hused]
  exact min_le_right _ _

@[simp] theorem Bucket.lastRefill_refill (b : Bucket) (now : ℤ) :
    (b.refill capacity refillPerSecond now).lastRefill = now := by
  unfold refill
  split <;> rfl

/-- The bucket loses exactly the admitted cost, and is left with no debt by an admitted call. -/
theorem Bucket.consume_cases (b : Bucket) (cost : ℚ) :
    ((b.consume cost).1 = true ∧ (b.consume cost).2.tokens = b.tokens - cost ∧
      0 ≤ (b.consume cost).2.tokens ∧ (b.consume cost).2.lastRefill = b.lastRefill) ∨
    ((b.consume cost).1 = false ∧ (b.consume cost).2 = b) := by
  unfold consume
  split
  · rename_i hle
    exact .inl ⟨rfl, rfl, sub_nonneg.mpr hle, rfl⟩
  · exact .inr ⟨rfl, rfl⟩

theorem allow_fst (cost : ℚ) (now : ℤ) :
    (l.allow key cost now).1
      = (((l.bucket key).refill l.capacity l.refillPerSecond now).consume cost).1 := rfl

theorem bucket_allow_self (cost : ℚ) (now : ℤ) :
    (l.allow key cost now).2.bucket key
      = (((l.bucket key).refill l.capacity l.refillPerSecond now).consume cost).2 := by
  simp [TokenBucketRateLimiter.allow, TokenBucketRateLimiter.bucket]

theorem bucket_allow_of_ne {key' : Bytes} (hne : key ≠ key') (cost : ℚ) (now : ℤ) :
    (l.allow key' cost now).2.bucket key = l.bucket key := by
  simp [TokenBucketRateLimiter.allow, TokenBucketRateLimiter.bucket,
    Finmap.lookup_insert_of_ne _ hne]

theorem spent_singleton (key : Bytes) (d : Decision) :
    spent key [d] = if d.admitted ∧ d.call.key = key then d.call.cost else 0 := by
  by_cases h : d.admitted ∧ d.call.key = key
  · simp [spent, h]
  · simp [spent, h]

@[simp] theorem spent_append (key : Bytes) (log log' : List Decision) :
    spent key (log ++ log') = spent key log + spent key log' := by
  simp [spent]

theorem seconds_add (a b : ℤ) : seconds (a + b) = seconds a + seconds b := by
  simp only [seconds, Int.cast_add, add_div]

/-! ## A window of calls -/

/-- Every window from a call on the key up to now: with what the bucket still has, no more was admitted
than a full bucket and the time since that call bring. -/
def Bounded (key : Bytes) (l : TokenBucketRateLimiter) (log : List Decision) : Prop :=
  ∀ earlier first rest, log = earlier ++ first :: rest → first.call.key = key →
    (l.bucket key).lastRefill ≠ 0 ∧
      spent key (first :: rest) + (l.bucket key).tokens
        ≤ l.capacity + l.refillPerSecond * seconds ((l.bucket key).lastRefill - first.call.now)

/-- Every window between two calls on the key of which the second was admitted. -/
def AdmittedLe (key : Bytes) (l : TokenBucketRateLimiter) (log : List Decision) : Prop :=
  ∀ earlier first between last later, log = earlier ++ first :: between ++ last :: later →
    first.call.key = key → last.call.key = key → last.admitted →
    spent key (first :: between ++ [last])
      ≤ l.capacity + l.refillPerSecond * seconds (last.call.now - first.call.now)

/-- A call takes from the bucket what it is admitted for, after a refill; an admitted call leaves no
debt. -/
theorem allow_spends {call : AllowCall} (hkey : call.key = key) :
    ((allowStep l call).1.bucket key).lastRefill = call.now ∧
    (∀ d ∈ (allowStep l call).2, d.admitted → 0 ≤ ((allowStep l call).1.bucket key).tokens) ∧
    spent key (allowStep l call).2 + ((allowStep l call).1.bucket key).tokens
      = ((l.bucket key).refill l.capacity l.refillPerSecond call.now).tokens := by
  subst hkey
  simp only [allowStep, spent_singleton, bucket_allow_self, allow_fst, and_true, List.forall_mem_singleton]
  obtain ⟨hyes, htokens, hnonneg, hlast⟩ | ⟨hno, hsame⟩ :=
    ((l.bucket call.key).refill l.capacity l.refillPerSecond call.now).consume_cases call.cost
  · refine ⟨by simp [hlast], fun _ => hnonneg, ?_⟩
    rw [htokens, if_pos hyes, add_sub_cancel]
  · simp [hno, hsame]

/-- **One call and the windows up to it.** The refill is at most the time since the last call brings,
so that the times of the calls telescope. -/
theorem Bounded.allow {log : List Decision} {call : AllowCall} (hbounded : Bounded key l log)
    (hnow : call.now ≠ 0) :
    Bounded key (allowStep l call).1 (log ++ (allowStep l call).2) := by
  intro earlier first rest hsplit hfirst
  change _ ∧ _ ≤ l.capacity + l.refillPerSecond * _
  rcases rest.eq_nil_or_concat with rfl | ⟨rest, d, rfl⟩
  · -- the window is the new call alone
    obtain ⟨-, hd⟩ := List.append_inj' hsplit rfl
    obtain rfl : _ = first := List.singleton_inj.mp hd
    obtain ⟨hlast, -, htotal⟩ := allow_spends (l := l) hfirst
    refine ⟨hlast ▸ hnow, ?_⟩
    calc _ = ((l.bucket key).refill l.capacity l.refillPerSecond call.now).tokens := htotal
      _ ≤ l.capacity := Bucket.tokens_refill_le_capacity _ _
      _ = l.capacity + l.refillPerSecond * seconds (call.now - call.now) := by simp [seconds]
      _ = _ := by rw [hlast]
  · -- the new call is the last one of a window that was there before
    rw [List.concat_eq_append, ← List.cons_append, ← List.append_assoc] at hsplit
    obtain ⟨hlog, hd⟩ := List.append_inj' hsplit rfl
    obtain rfl : _ = d := List.singleton_inj.mp hd
    obtain ⟨hused, hle⟩ := hbounded earlier first rest hlog hfirst
    rw [List.concat_eq_append, ← List.cons_append, spent_append]
    by_cases hkey : call.key = key
    · obtain ⟨hlast, -, htotal⟩ := allow_spends (l := l) hkey
      refine ⟨hlast ▸ hnow, ?_⟩
      have hrefill := Bucket.tokens_refill_le hused l.capacity l.refillPerSecond call.now
      have htime := seconds_add (call.now - (l.bucket key).lastRefill)
        ((l.bucket key).lastRefill - first.call.now)
      rw [sub_add_sub_cancel] at htime
      change spent key (first :: rest) + spent key (allowStep l call).2 + _ ≤ _
      rw [hlast, htime, add_assoc, htotal]
      linarith
    · have hsame : (allowStep l call).1.bucket key = l.bucket key :=
        bucket_allow_of_ne (Ne.symm hkey) _ _
      rw [hsame, spent_singleton, if_neg (fun h => hkey h.2), add_zero]
      exact ⟨hused, hle⟩

/-- The second call of a window leaves no debt in the bucket. -/
theorem AdmittedLe.allow {log : List Decision} {call : AllowCall} (hle : AdmittedLe key l log)
    (hbounded : Bounded key (allowStep l call).1 (log ++ (allowStep l call).2)) :
    AdmittedLe key (allowStep l call).1 (log ++ (allowStep l call).2) := by
  intro earlier first between last later hsplit hfirst hlast hadmitted
  rcases later.eq_nil_or_concat with rfl | ⟨later, d, rfl⟩
  · obtain ⟨-, hd⟩ := List.append_inj' hsplit rfl
    obtain rfl : _ = last := List.singleton_inj.mp hd
    obtain ⟨htime, hnonneg, -⟩ := allow_spends (l := l) hlast
    rw [List.append_assoc, List.cons_append] at hsplit
    obtain ⟨-, htotal⟩ := hbounded earlier first _ hsplit hfirst
    rw [htime] at htotal
    exact (le_add_of_nonneg_right (hnonneg _ (List.mem_singleton_self _) hadmitted)).trans htotal
  · rw [List.concat_eq_append, ← List.cons_append, ← List.append_assoc] at hsplit
    obtain ⟨hlog, -⟩ := List.append_inj' hsplit rfl
    exact hle earlier first between last later hlog hfirst hlast hadmitted

/-! ## Whole runs -/

/-- The limiter before the first call. -/
def fresh (capacity refillPerSecond : ℚ) : TokenBucketRateLimiter := { capacity, refillPerSecond }

/-- What holds of the limiter and its log in every run. -/
def Limited (capacity refillPerSecond : ℚ) (key : Bytes) (l : TokenBucketRateLimiter)
    (log : List Decision) : Prop :=
  l.capacity = capacity ∧ l.refillPerSecond = refillPerSecond ∧ AdmittedLe key l log ∧ Bounded key l log

theorem limited_run {calls : List AllowCall} (hnow : ∀ call ∈ calls, call.now ≠ 0) :
    Limited capacity refillPerSecond key
      (Reactive.run allowStep (fresh capacity refillPerSecond) calls).1
      (Reactive.run allowStep (fresh capacity refillPerSecond) calls).2 := by
  have hinit : Limited capacity refillPerSecond key (fresh capacity refillPerSecond) [] := by
    refine ⟨rfl, rfl, ?_, ?_⟩
    · intro earlier first between last later h
      simp at h
    · intro earlier first rest h
      simp at h
  have hstep : ∀ l log (call : AllowCall), Limited capacity refillPerSecond key l log →
      call.now ≠ 0 → Limited capacity refillPerSecond key (allowStep l call).1
        (log ++ (allowStep l call).2) := by
    rintro l log call ⟨hcapacity, hrate, hle, hbounded⟩ hcall
    exact ⟨hcapacity, hrate, hle.allow (hbounded.allow hcall), hbounded.allow hcall⟩
  refine Reactive.run_invariant_of_rule hinit hstep fun calls' call hstart => ?_
  exact hnow call (hstart.subset (by simp))

/-- The same settings, and the same bucket for a key. -/
structure Agree (key : Bytes) (l l' : TokenBucketRateLimiter) : Prop where
  capacity : l.capacity = l'.capacity
  refillPerSecond : l.refillPerSecond = l'.refillPerSecond
  bucket : l.bucket key = l'.bucket key

theorem Agree.allow {l' : TokenBucketRateLimiter} {call : AllowCall} (h : Agree key l l')
    (hkey : call.key = key) :
    (allowStep l call).2 = (allowStep l' call).2 ∧
      Agree key (allowStep l call).1 (allowStep l' call).1 := by
  subst hkey
  constructor
  · simp only [allowStep, allow_fst, h.capacity, h.refillPerSecond, h.bucket]
  · refine ⟨h.capacity, h.refillPerSecond, ?_⟩
    simp only [allowStep, bucket_allow_self, h.capacity, h.refillPerSecond, h.bucket]

theorem Agree.allow_other {l' : TokenBucketRateLimiter} {call : AllowCall} (h : Agree key l l')
    (hkey : call.key ≠ key) : Agree key (allowStep l call).1 l' :=
  ⟨h.capacity, h.refillPerSecond, (bucket_allow_of_ne hkey.symm _ _).trans h.bucket⟩

/-- The decisions on a key are those of a run of the calls on the key only. -/
theorem run_filter (l : TokenBucketRateLimiter) (key : Bytes) (calls : List AllowCall) :
    let r := Reactive.run allowStep l calls
    let own := Reactive.run allowStep l (calls.filter (·.key = key))
    r.2.filter (·.call.key = key) = own.2 ∧ Agree key r.1 own.1 := by
  induction calls using List.reverseRecOn with
  | nil => exact ⟨rfl, rfl, rfl, rfl⟩
  | append_singleton calls call ih =>
    obtain ⟨hlog, hagree⟩ := ih
    simp only [Reactive.run_concat, List.filter_append, hlog]
    by_cases hkey : call.key = key
    · obtain ⟨hsame, hagree⟩ := hagree.allow hkey
      rw [List.filter_cons_of_pos (by simpa using hkey), List.filter_nil, Reactive.run_concat, ← hsame]
      exact ⟨by simp [allowStep, hkey], hagree⟩
    · rw [List.filter_cons_of_neg (by simpa using hkey), List.filter_nil, List.append_nil]
      exact ⟨by simp [allowStep, hkey], hagree.allow_other hkey⟩

/-- **Admission.** For any two calls on a key of which the second is admitted, no more than a full bucket
and the refill of the time between their readings is admitted from the first to the second; and the
decisions on a key do not depend on the calls on other keys. Nothing is asked of the capacity, the rate
and the costs. -/
theorem admission_bound (capacity refillPerSecond : ℚ) {calls : List AllowCall}
    (hnow : ∀ call ∈ calls, call.now ≠ 0) (key : Bytes) :
    (∀ earlier first between last later,
      (Reactive.run allowStep (fresh capacity refillPerSecond) calls).2
        = earlier ++ first :: between ++ last :: later →
      first.call.key = key → last.call.key = key → last.admitted →
      spent key (first :: between ++ [last])
        ≤ capacity + refillPerSecond * seconds (last.call.now - first.call.now)) ∧
    ∀ calls', calls'.filter (·.key = key) = calls.filter (·.key = key) →
      (Reactive.run allowStep (fresh capacity refillPerSecond) calls').2.filter (·.call.key = key)
        = (Reactive.run allowStep (fresh capacity refillPerSecond) calls).2.filter
            (·.call.key = key) := by
  constructor
  · obtain ⟨hcapacity, hrate, hle, -⟩ := limited_run hnow
    intro earlier first between last later hsplit hfirst hlast hadmitted
    have := hle earlier first between last later hsplit hfirst hlast hadmitted
    rwa [hcapacity, hrate] at this
  · intro calls' hown
    rw [(run_filter _ key calls').1, (run_filter _ key calls).1, hown]

/-- A burst of one client, of which the last call comes with a reading older than the one before; another
client is served in between. -/
def burst : List AllowCall :=
  [{ key := bytes "a", now := 1000000000 }, { key := bytes "a", now := 1500000000 },
    { key := bytes "b", now := 1400000000 }, { key := bytes "a", now := 1200000000 }]

theorem admission_bound_burst :
    (Reactive.run allowStep (fresh 3 2) burst).2.map (·.admitted) = [true, true, true, true] ∧
    ∀ earlier first between last later,
      (Reactive.run allowStep (fresh 3 2) burst).2 = earlier ++ first :: between ++ last :: later →
      first.call.key = bytes "a" → last.call.key = bytes "a" → last.admitted →
      spent (bytes "a") (first :: between ++ [last])
        ≤ 3 + 2 * seconds (last.call.now - first.call.now) :=
  ⟨by decide +kernel, (admission_bound 3 2 (by decide) (bytes "a")).1⟩

end ApiGateway.Resilience
