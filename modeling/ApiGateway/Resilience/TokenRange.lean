import ApiGateway.Resilience.RateLimiter

/-!
# Token counts under concurrent calls

Any number of threads call `allow`. Each call reads the clock in one step and enters its critical section in
a later one, so that calls may enter in another order than that of their readings. The clock only goes
forward. A call that enters with a reading older than the bucket's last refill sets the refill time back, and
takes tokens out of the bucket for the negative time between. The counts stay in range, and no refill time
goes back, exactly in the runs in which the calls for one key enter in the order of their readings
(`token_range_iff`).

Reference: `include/resilience/RateLimiter.hpp`.
-/

namespace ApiGateway.Resilience

open Str

/-- The limiter, the clock, and the calls that have read the clock but have not entered yet. -/
structure LimiterState where
  limiter : TokenBucketRateLimiter
  clock : ℤ
  pending : ℕ → Option AllowCall

inductive LimiterEvent where
  /-- Time passes. -/
  | tick (ticks : ℕ)
  /-- A thread calls `allow`, and reads the clock. -/
  | read (thread : ℕ) (key : Bytes)
  /-- A thread enters and leaves its critical section. -/
  | enter (thread : ℕ)
deriving DecidableEq, Repr

/-- What a critical section has done to a bucket. -/
structure BucketUpdate where
  before : Option Bucket
  after : Bucket
deriving DecidableEq, Repr

/-- One event. A thread that has a call under way makes no other one. -/
def limiterStep (s : LimiterState) : LimiterEvent → LimiterState × List BucketUpdate
  | .tick ticks => ({ s with clock := s.clock + ticks }, [])
  | .read thread key =>
    match s.pending thread with
    | some _ => (s, [])
    | none =>
      ({ s with pending := Function.update s.pending thread (some { key, now := s.clock }) }, [])
  | .enter thread =>
    match s.pending thread with
    | none => (s, [])
    | some call =>
      let l := (s.limiter.allow call.key call.cost call.now).2
      ({ s with limiter := l, pending := Function.update s.pending thread none },
        [⟨s.limiter.buckets.lookup call.key, l.bucket call.key⟩])

theorem limiterStep_enter {s : LimiterState} {thread : ℕ} {call : AllowCall}
    (h : s.pending thread = some call) :
    limiterStep s (.enter thread)
      = ({ s with
            limiter := (s.limiter.allow call.key call.cost call.now).2
            pending := Function.update s.pending thread none },
          [⟨s.limiter.buckets.lookup call.key,
            (s.limiter.allow call.key call.cost call.now).2.bucket call.key⟩]) := by
  simp only [limiterStep, h]

/-- Before the first call. -/
def limiterStart (capacity refillPerSecond : ℚ) (clock : ℤ) : LimiterState :=
  ⟨fresh capacity refillPerSecond, clock, fun _ => none⟩

/-- Every bucket has between no token and as many as it can hold. -/
def InRange (l : TokenBucketRateLimiter) : Prop :=
  ∀ key b, l.buckets.lookup key = some b → 0 ≤ b.tokens ∧ b.tokens ≤ l.capacity

/-- No update has set a refill time back. -/
def Forward (log : List BucketUpdate) : Prop :=
  ∀ u ∈ log, ∀ b ∈ u.before, b.lastRefill ≤ u.after.lastRefill

/-- A call enters with a reading that is not older than the last refill of its bucket. -/
def InOrder (s : LimiterState) : LimiterEvent → Prop
  | .tick _ => True
  | .read _ _ => True
  | .enter thread => ∀ call ∈ s.pending thread, ∀ b ∈ s.limiter.buckets.lookup call.key,
      b.lastRefill ≤ call.now

/-- What holds in the runs in which all calls enter in order. -/
structure Orderly (capacity refillPerSecond : ℚ) (s : LimiterState) (log : List BucketUpdate) :
    Prop where
  capacity_eq : s.limiter.capacity = capacity
  refill_eq : s.limiter.refillPerSecond = refillPerSecond
  cost_eq : ∀ thread, ∀ call ∈ s.pending thread, call.cost = 1
  inRange : InRange s.limiter
  forward : Forward log

variable {capacity refillPerSecond : ℚ} {s : LimiterState} {log : List BucketUpdate}

/-- Time that does not go back leaves the tokens in range. -/
theorem Bucket.refill_nonneg {b : Bucket} (hcapacity : 1 ≤ capacity) (hrate : 0 < refillPerSecond)
    (hb : 0 ≤ b.tokens) {now : ℤ} (hnow : b.lastRefill ≤ now) :
    0 ≤ (b.refill capacity refillPerSecond now).tokens := by
  unfold refill
  split
  · exact zero_le_one.trans hcapacity
  · have helapsed : 0 ≤ seconds (now - b.lastRefill) := by
      have hdiff : (0 : ℚ) ≤ ((now - b.lastRefill : ℤ) : ℚ) := by
        exact_mod_cast sub_nonneg.mpr hnow
      exact div_nonneg hdiff (by positivity)
    exact le_min (zero_le_one.trans hcapacity) (add_nonneg hb (mul_nonneg helapsed hrate.le))

/-- Taking one token leaves the others in range. -/
theorem Bucket.consume_mem {b : Bucket} (h : 0 ≤ b.tokens) (hle : b.tokens ≤ capacity) :
    0 ≤ (b.consume 1).2.tokens ∧ (b.consume 1).2.tokens ≤ capacity ∧
      (b.consume 1).2.lastRefill = b.lastRefill := by
  obtain ⟨-, htokens, hnonneg, hlast⟩ | ⟨-, hsame⟩ := b.consume_cases 1
  · refine ⟨hnonneg, ?_, hlast⟩
    rw [htokens]
    linarith
  · rw [hsame]
    exact ⟨h, hle, rfl⟩

/-- What a critical section does: it leaves its bucket, with the call's reading, and the others alone. -/
theorem lookup_allow (l : TokenBucketRateLimiter) (key key' : Bytes) (cost : ℚ) (now : ℤ) :
    (l.allow key' cost now).2.buckets.lookup key
      = if key = key' then some ((l.allow key' cost now).2.bucket key') else l.buckets.lookup key := by
  split
  · rename_i heq
    subst heq
    simp [TokenBucketRateLimiter.allow, TokenBucketRateLimiter.bucket]
  · rename_i hne
    simp [TokenBucketRateLimiter.allow, Finmap.lookup_insert_of_ne _ hne]

/-- The refill time after a call is the reading of the call. -/
theorem lastRefill_allow (l : TokenBucketRateLimiter) (key : Bytes) (cost : ℚ) (now : ℤ) :
    ((l.allow key cost now).2.bucket key).lastRefill = now := by
  rw [bucket_allow_self]
  obtain ⟨-, -, -, hlast⟩ | ⟨-, hsame⟩ :=
    ((l.bucket key).refill l.capacity l.refillPerSecond now).consume_cases cost
  · rw [hlast, Bucket.lastRefill_refill]
  · rw [hsame, Bucket.lastRefill_refill]

/-- **One critical section in order.** -/
theorem InRange.allow {l : TokenBucketRateLimiter} (h : InRange l) (hcapacity : 1 ≤ l.capacity)
    (hrate : 0 < l.refillPerSecond) {key : Bytes} {now : ℤ}
    (hnow : ∀ b ∈ l.buckets.lookup key, b.lastRefill ≤ now) : InRange (l.allow key 1 now).2 := by
  intro key' b hb
  rw [lookup_allow] at hb
  split at hb
  · rename_i heq
    subst heq
    obtain rfl := Option.some.inj hb
    rw [bucket_allow_self]
    have hrefill : 0 ≤ ((l.bucket key').refill l.capacity l.refillPerSecond now).tokens := by
      cases hlookup : l.buckets.lookup key' with
      | none =>
        -- a new bucket is full
        have hnew : l.bucket key' = {} := by rw [TokenBucketRateLimiter.bucket, hlookup]; rfl
        rw [hnew]
        exact zero_le_one.trans hcapacity
      | some b =>
        have hold : l.bucket key' = b := by rw [TokenBucketRateLimiter.bucket, hlookup]; rfl
        rw [hold]
        exact Bucket.refill_nonneg hcapacity hrate (h key' b hlookup).1 (hnow b hlookup)
    obtain ⟨hnonneg, hle, -⟩ := Bucket.consume_mem hrefill (Bucket.tokens_refill_le_capacity _ _)
    exact ⟨hnonneg, hle⟩
  · exact h key' b hb

/-- **One event in order.** -/
theorem Orderly.step (hcapacity : 1 ≤ capacity) (hrate : 0 < refillPerSecond) {e : LimiterEvent}
    (h : Orderly capacity refillPerSecond s log) (hok : InOrder s e) :
    Orderly capacity refillPerSecond (limiterStep s e).1 (log ++ (limiterStep s e).2) := by
  cases e with
  | tick ticks => exact ⟨h.1, h.2, h.3, h.4, by simpa [limiterStep] using h.5⟩
  | read thread key =>
    rw [limiterStep]
    split
    · simpa using h
    · refine ⟨h.1, h.2, fun thread' call hcall => ?_, h.4, by simpa using h.5⟩
      by_cases heq : thread' = thread
      · subst heq
        obtain rfl : _ = call := by simpa using hcall
        rfl
      · simp only [Function.update_of_ne heq] at hcall
        exact h.3 thread' call hcall
  | enter thread =>
    cases hpending : s.pending thread with
    | none => simpa [limiterStep, hpending] using h
    | some call =>
      have hcost := h.cost_eq thread call hpending
      have hnow := hok call hpending
      rw [limiterStep_enter hpending, hcost]
      refine ⟨h.1, h.2, fun thread' call' hcall' => ?_, ?_, ?_⟩
      · by_cases heq : thread' = thread
        · subst heq
          simp at hcall'
        · simp only [Function.update_of_ne heq] at hcall'
          exact h.3 thread' call' hcall'
      · exact h.inRange.allow (h.1 ▸ hcapacity) (h.2 ▸ hrate) hnow
      · intro u hu b hb
        rcases List.mem_append.mp hu with hu | hu
        · exact h.forward u hu b hb
        · obtain rfl := List.mem_singleton.mp hu
          rw [lastRefill_allow]
          exact hnow b hb

/-- A call out of order sets a refill time back. -/
theorem not_forward_of_not_inOrder {e : LimiterEvent} (h : ¬ InOrder s e) :
    ¬ Forward (log ++ (limiterStep s e).2) := by
  cases e with
  | tick ticks => exact absurd trivial h
  | read thread key => exact absurd trivial h
  | enter thread =>
    simp only [InOrder, not_forall, not_le] at h
    obtain ⟨call, hcall, b, hb, hlt⟩ := h
    intro hforward
    rw [limiterStep_enter hcall] at hforward
    have hback := hforward _ (List.mem_append_right _ (List.mem_singleton_self _)) b hb
    rw [lastRefill_allow] at hback
    omega

/-! ## The order of the critical sections -/

/-- The calls under way after a thread has read the clock. -/
def readClock (pending : ℕ → Option AllowCall) (clock : ℤ) (thread : ℕ) (key : Bytes) : ℕ → Option AllowCall :=
  match pending thread with
  | some _ => pending
  | none => Function.update pending thread (some { key, now := clock })

/-- The calls in the order in which they enter, each with its reading. The buckets have no part in it. -/
def lockOrder (clock : ℤ) (pending : ℕ → Option AllowCall) : List LimiterEvent → List AllowCall
  | [] => []
  | .tick ticks :: es => lockOrder (clock + ticks) pending es
  | .read thread key :: es => lockOrder clock (readClock pending clock thread key) es
  | .enter thread :: es => (pending thread).toList ++ lockOrder clock (Function.update pending thread none) es

/-- Calls for one key enter in the order of their readings. -/
def ReadingsSorted (calls : List AllowCall) : Prop :=
  calls.Pairwise fun call call' => call.key = call'.key → call.now ≤ call'.now

instance (calls : List AllowCall) : Decidable (ReadingsSorted calls) :=
  inferInstanceAs (Decidable (calls.Pairwise _))

/-- No call has a reading older than the last refill of its bucket in `l`. -/
def NotBefore (l : TokenBucketRateLimiter) (calls : List AllowCall) : Prop :=
  ∀ call ∈ calls, ∀ b ∈ l.buckets.lookup call.key, b.lastRefill ≤ call.now

/-- **One critical section, in terms of the readings.** The call leaves its reading in its bucket for the later ones. -/
theorem sorted_cons_iff (l : TokenBucketRateLimiter) (call : AllowCall) (calls : List AllowCall) :
    ReadingsSorted (call :: calls) ∧ NotBefore l (call :: calls) ↔
      (∀ b ∈ l.buckets.lookup call.key, b.lastRefill ≤ call.now) ∧ ReadingsSorted calls ∧
        NotBefore (l.allow call.key call.cost call.now).2 calls := by
  simp only [ReadingsSorted, List.pairwise_cons, NotBefore, List.forall_mem_cons]
  constructor
  · rintro ⟨⟨hfirst, hsorted⟩, hcall, hcalls⟩
    refine ⟨hcall, hsorted, fun call' hcall' b hb => ?_⟩
    rw [lookup_allow] at hb
    split at hb
    · rename_i hkey
      obtain rfl := Option.some.inj hb
      rw [lastRefill_allow]
      exact hfirst call' hcall' hkey.symm
    · exact hcalls call' hcall' b hb
  · rintro ⟨hcall, hsorted, hcalls⟩
    have hfirst : ∀ call' ∈ calls, call.key = call'.key → call.now ≤ call'.now := by
      intro call' hcall' hkey
      have hlookup : (l.allow call.key call.cost call.now).2.buckets.lookup call'.key
          = some ((l.allow call.key call.cost call.now).2.bucket call.key) := by
        rw [lookup_allow, if_pos hkey.symm]
      have := hcalls call' hcall' _ hlookup
      rwa [lastRefill_allow] at this
    refine ⟨⟨hfirst, hsorted⟩, hcall, fun call' hcall' b hb => ?_⟩
    by_cases hkey : call.key = call'.key
    · exact (hcall b (hkey ▸ hb)).trans (hfirst call' hcall' hkey)
    · refine hcalls call' hcall' b ?_
      rw [lookup_allow, if_neg (Ne.symm hkey)]
      exact hb

/-- **All events are in order** if and only if the readings are sorted for each key, and none is older than what
the buckets have at first. -/
theorem obeys_inOrder_iff (s : LimiterState) (log : List BucketUpdate) (events : List LimiterEvent) :
    Reactive.Obeys limiterStep (fun s _ e => InOrder s e) s log events ↔
      ReadingsSorted (lockOrder s.clock s.pending events) ∧
        NotBefore s.limiter (lockOrder s.clock s.pending events) := by
  induction events generalizing s log with
  | nil => simp [Reactive.Obeys, lockOrder, ReadingsSorted, NotBefore]
  | cons e es ih =>
    rw [Reactive.Obeys, ih]
    cases e with
    | tick ticks => simp [InOrder, limiterStep, lockOrder]
    | read thread key =>
      cases hpending : s.pending thread with
      | none => simp [InOrder, limiterStep, lockOrder, readClock, hpending]
      | some call => simp [InOrder, limiterStep, lockOrder, readClock, hpending]
    | enter thread =>
      cases hpending : s.pending thread with
      | none =>
        have hsame : Function.update s.pending thread none = s.pending := by
          rw [← hpending, Function.update_eq_self]
        simp [InOrder, limiterStep, lockOrder, hpending, hsame]
      | some call =>
        rw [limiterStep_enter hpending, lockOrder, hpending, Option.toList_some, List.singleton_append,
          sorted_cons_iff]
        simp [InOrder, hpending]

/-- **Token counts in range.** For every interleaving of calls: all counts stay between zero and the
capacity and no refill time goes back, if and only if the calls for one key enter their critical sections in the
order of their clock readings. -/
theorem token_range_iff (hcapacity : 1 ≤ capacity) (hrate : 0 < refillPerSecond) (clock : ℤ)
    (events : List LimiterEvent) :
    (∀ events', events' <+: events →
      InRange (Reactive.run limiterStep (limiterStart capacity refillPerSecond clock) events').1.limiter ∧
      Forward (Reactive.run limiterStep (limiterStart capacity refillPerSecond clock) events').2) ↔
    ReadingsSorted (lockOrder clock (fun _ => none) events) := by
  have hinit : Orderly capacity refillPerSecond (limiterStart capacity refillPerSecond clock) [] := by
    refine ⟨rfl, rfl, ?_, ?_, ?_⟩
    · intro thread call hcall
      simp [limiterStart] at hcall
    · intro key b hb
      simp [limiterStart, fresh] at hb
    · intro u hu
      simp at hu
  have hstep : ∀ s log e, Orderly capacity refillPerSecond s log → InOrder s e →
      Orderly capacity refillPerSecond (limiterStep s e).1 (log ++ (limiterStep s e).2) :=
    fun s log e h hok => h.step hcapacity hrate hok
  have hsafe : ∀ s log, Orderly capacity refillPerSecond s log →
      InRange s.limiter ∧ Forward log := fun s log h => ⟨h.inRange, h.forward⟩
  have hobeys : Reactive.Obeys limiterStep (fun s _ e => InOrder s e)
      (limiterStart capacity refillPerSecond clock) [] events ↔ _ := Reactive.obeys_iff
  rw [Reactive.safe_iff hinit hstep hsafe
      (fun s log e _ hnot hafter => not_forward_of_not_inOrder hnot hafter.2) events,
    ← hobeys, obeys_inOrder_iff]
  refine and_iff_left fun call _ b hb => ?_
  simp [limiterStart, fresh] at hb

/-- Two calls of a client that enter in the other order than that of their readings. -/
def overtaking : List LimiterEvent :=
  [.read 0 (bytes "a"), .tick 1000000000, .read 1 (bytes "a"), .enter 1, .enter 0]

/-- **A bucket in debt.** -/
theorem overtaking_debt :
    ((Reactive.run limiterStep (limiterStart 1 1 1000000000) overtaking).1.limiter.bucket
      (bytes "a")) = ⟨-1, 1000000000⟩ ∧
    (Reactive.run limiterStep (limiterStart 1 1 1000000000) overtaking).2
      = [⟨none, ⟨0, 2000000000⟩⟩, ⟨some ⟨0, 2000000000⟩, ⟨-1, 1000000000⟩⟩] := by
  decide +kernel

/-- Two calls of a client that overlap, and enter in the order of their readings. -/
def overlapping : List LimiterEvent :=
  [.read 0 (bytes "a"), .tick 1000000000, .read 1 (bytes "a"), .enter 0, .enter 1]

theorem token_range_overlapping :
    ReadingsSorted (lockOrder 1000000000 (fun _ => none) overlapping) ∧
      ∀ events', events' <+: overlapping →
        InRange (Reactive.run limiterStep (limiterStart 1 1 1000000000) events').1.limiter ∧
        Forward (Reactive.run limiterStep (limiterStart 1 1 1000000000) events').2 := by
  have hsorted : ReadingsSorted (lockOrder 1000000000 (fun _ => none) overlapping) := by decide
  exact ⟨hsorted, (token_range_iff le_rfl one_pos 1000000000 overlapping).mpr hsorted⟩

end ApiGateway.Resilience
