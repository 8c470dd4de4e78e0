import Mathlib.Data.Finset.Basic
import Mathlib.Data.Int.Order.Basic
import Mathlib.Logic.Relation
import Mathlib.Tactic.Common

/-!
# The circuit breaker

`CircuitBreaker` as the source has it. Every member function runs under the breaker's lock, so a call is
one step; the clock reading it takes is an argument. Times and the reset timeout are in ticks of the
steady clock. The counters are `int`s that stay below the threshold and the trial limit, so that they
are plain integers here.

The second half is about the breaker under any number of workers. A worker that has been admitted reports
the outcome exactly once, and in between it counts as outstanding. With one trial request, as
`buildRouter` sets it up, a half-open breaker has always someone to report to it.

Reference: `include/resilience/CircuitBreaker.hpp`.
-/

namespace ApiGateway.Resilience

inductive CircuitState where
  | Closed
  | Open
  | HalfOpen
deriving DecidableEq, Repr

structure CircuitBreaker where
  failureThreshold : ℤ
  resetTimeout : ℤ
  halfOpenTrialRequests : ℤ := 1
  state : CircuitState := .Closed
  consecutiveFailures : ℤ := 0
  halfOpenInFlight : ℤ := 0
  openedAt : ℤ := 0
deriving DecidableEq, Repr

namespace CircuitBreaker

/-- The end of `allowRequest`: only so many trial requests pass a half-open breaker. -/
def admitTrial (b : CircuitBreaker) : Bool × CircuitBreaker :=
  if b.state = .HalfOpen then
    if b.halfOpenTrialRequests ≤ b.halfOpenInFlight then (false, b)
    else (true, { b with halfOpenInFlight := b.halfOpenInFlight + 1 })
  else (true, b)

/-- `allowRequest` at time `now`: an open breaker becomes half-open once the reset timeout has passed. -/
def allowRequest (b : CircuitBreaker) (now : ℤ) : Bool × CircuitBreaker :=
  if b.state = .Open then
    if b.resetTimeout ≤ now - b.openedAt then
      admitTrial { b with state := .HalfOpen, halfOpenInFlight := 0 }
    else (false, b)
  else b.admitTrial

def onSuccess (b : CircuitBreaker) : CircuitBreaker :=
  let b := { b with consecutiveFailures := 0 }
  if b.state = .HalfOpen then { b with state := .Closed, halfOpenInFlight := 0 } else b

def trip (b : CircuitBreaker) (now : ℤ) : CircuitBreaker :=
  { b with state := .Open, openedAt := now, consecutiveFailures := 0, halfOpenInFlight := 0 }

def onFailure (b : CircuitBreaker) (now : ℤ) : CircuitBreaker :=
  if b.state = .HalfOpen then b.trip now
  else
    let b := { b with consecutiveFailures := b.consecutiveFailures + 1 }
    if b.failureThreshold ≤ b.consecutiveFailures then b.trip now else b

/-! ## What a call can do -/

/-- `allowRequest`, case by case. -/
theorem allowRequest_cases (b : CircuitBreaker) (now : ℤ) :
    (b.state = .Closed ∧ b.allowRequest now = (true, b)) ∨
    (b.state = .Open ∧ now - b.openedAt < b.resetTimeout ∧ b.allowRequest now = (false, b)) ∨
    (b.state = .Open ∧ b.resetTimeout ≤ now - b.openedAt ∧ b.halfOpenTrialRequests ≤ 0 ∧
      b.allowRequest now = (false, { b with state := .HalfOpen, halfOpenInFlight := 0 })) ∨
    (b.state = .Open ∧ b.resetTimeout ≤ now - b.openedAt ∧ 0 < b.halfOpenTrialRequests ∧
      b.allowRequest now = (true, { b with state := .HalfOpen, halfOpenInFlight := 1 })) ∨
    (b.state = .HalfOpen ∧ b.halfOpenTrialRequests ≤ b.halfOpenInFlight ∧
      b.allowRequest now = (false, b)) ∨
    (b.state = .HalfOpen ∧ b.halfOpenInFlight < b.halfOpenTrialRequests ∧
      b.allowRequest now = (true, { b with halfOpenInFlight := b.halfOpenInFlight + 1 })) := by
  cases hstate : b.state with
  | Closed => exact .inl ⟨rfl, by simp [allowRequest, admitTrial, hstate]⟩
  | Open =>
    by_cases hwait : b.resetTimeout ≤ now - b.openedAt
    · by_cases htrials : b.halfOpenTrialRequests ≤ 0
      · exact .inr (.inr (.inl ⟨rfl, hwait, htrials, by
          simp [allowRequest, admitTrial, hstate, hwait, htrials]⟩))
      · exact .inr (.inr (.inr (.inl ⟨rfl, hwait, by omega, by
          simp [allowRequest, admitTrial, hstate, hwait, htrials]⟩)))
    · exact .inr (.inl ⟨rfl, by omega, by simp [allowRequest, hstate, hwait]⟩)
  | HalfOpen =>
    by_cases hfull : b.halfOpenTrialRequests ≤ b.halfOpenInFlight
    · exact .inr (.inr (.inr (.inr (.inl ⟨rfl, hfull, by
        simp [allowRequest, admitTrial, hstate, hfull]⟩))))
    · exact .inr (.inr (.inr (.inr (.inr ⟨rfl, by omega, by
        simp [allowRequest, admitTrial, hstate, hfull]⟩))))

/-- Whether a failure reported now trips the breaker. -/
def Trips (b : CircuitBreaker) : Prop :=
  b.state = .HalfOpen ∨ b.failureThreshold ≤ b.consecutiveFailures + 1

instance (b : CircuitBreaker) : Decidable b.Trips := inferInstanceAs (Decidable (_ ∨ _))

theorem onFailure_of_trips {b : CircuitBreaker} (h : b.Trips) (now : ℤ) :
    b.onFailure now = b.trip now := by
  rcases h with hstate | hfull
  · simp [onFailure, hstate]
  · by_cases hstate : b.state = .HalfOpen
    · simp [onFailure, hstate]
    · simp [onFailure, hstate, hfull, trip]

theorem onFailure_of_not_trips {b : CircuitBreaker} (h : ¬ b.Trips) (now : ℤ) :
    b.onFailure now = { b with consecutiveFailures := b.consecutiveFailures + 1 } := by
  obtain ⟨hstate, hfull⟩ := not_or.mp h
  simp only [onFailure, hstate, hfull, if_false]

/-- Whether a request is admitted at time `now`. -/
def Admits (b : CircuitBreaker) (now : ℤ) : Prop :=
  b.state = .Closed ∨
  (b.state = .Open ∧ b.resetTimeout ≤ now - b.openedAt ∧ 0 < b.halfOpenTrialRequests) ∨
  (b.state = .HalfOpen ∧ b.halfOpenInFlight < b.halfOpenTrialRequests)

theorem allowRequest_fst_iff (b : CircuitBreaker) (now : ℤ) :
    (b.allowRequest now).1 = true ↔ b.Admits now := by
  unfold Admits
  rcases b.allowRequest_cases now with ⟨hs, h⟩ | ⟨hs, _, h⟩ | ⟨hs, _, _, h⟩ | ⟨hs, _, _, h⟩ |
    ⟨hs, _, h⟩ | ⟨hs, _, h⟩
  all_goals
    rw [h, hs]
    simp
    try omega

/-- A refusal does not bear on later requests. -/
theorem admits_of_refused {b : CircuitBreaker} {now : ℤ} (h : ¬ b.Admits now) (later : ℤ) :
    (b.allowRequest now).2.Admits later ↔ b.Admits later := by
  rw [← allowRequest_fst_iff] at h
  rcases b.allowRequest_cases now with ⟨_, heq⟩ | ⟨_, _, heq⟩ | ⟨hs, _, htrials, heq⟩ |
    ⟨_, _, _, heq⟩ | ⟨_, _, heq⟩ | ⟨_, _, heq⟩
  · simp [heq] at h
  · rw [heq]
  · -- the breaker has become half-open, and admits no trial request in either state
    rw [heq]
    unfold Admits
    simp only [hs, reduceCtorEq, false_and, false_or, or_false, true_and]
    omega
  · simp [heq] at h
  · rw [heq]
  · simp [heq] at h

/-- Report the outcome of an admitted request. -/
def report (b : CircuitBreaker) (ok : Bool) (now : ℤ) : CircuitBreaker :=
  if ok then b.onSuccess else b.onFailure now

/-- No report leaves the breaker half-open. -/
theorem report_state_ne_halfOpen (b : CircuitBreaker) (ok : Bool) (now : ℤ) :
    (b.report ok now).state ≠ .HalfOpen := by
  cases ok with
  | true =>
    by_cases h : b.state = .HalfOpen
    · simp [report, onSuccess, h]
    · simp [report, onSuccess, h]
  | false =>
    by_cases h : b.Trips
    · simp [report, onFailure_of_trips h, trip]
    · simpa [report, onFailure_of_not_trips h] using (not_or.mp h).1

theorem report_halfOpenTrialRequests (b : CircuitBreaker) (ok : Bool) (now : ℤ) :
    (b.report ok now).halfOpenTrialRequests = b.halfOpenTrialRequests := by
  cases ok with
  | true => simp only [report, onSuccess, if_true]; split <;> rfl
  | false =>
    by_cases h : b.Trips
    · simp [report, onFailure_of_trips h, trip]
    · simp [report, onFailure_of_not_trips h]

end CircuitBreaker

/-! ## Any number of workers -/

/-- A breaker and the workers it has admitted and that have not reported yet. -/
structure System where
  breaker : CircuitBreaker
  outstanding : Finset ℕ

namespace System

/-- One call under the lock, at any clock reading. A worker asks while it is not outstanding, and
reports while it is. -/
inductive Step : System → System → Prop
  | admitted {s : System} {w : ℕ} {now : ℤ} {b : CircuitBreaker} : w ∉ s.outstanding →
      s.breaker.allowRequest now = (true, b) → Step s ⟨b, insert w s.outstanding⟩
  | refused {s : System} {w : ℕ} {now : ℤ} {b : CircuitBreaker} : w ∉ s.outstanding →
      s.breaker.allowRequest now = (false, b) → Step s ⟨b, s.outstanding⟩
  | reported {s : System} {w : ℕ} (ok : Bool) (now : ℤ) : w ∈ s.outstanding →
      Step s ⟨s.breaker.report ok now, s.outstanding.erase w⟩

/-- A breaker as `buildRouter` makes it, with one trial request, and nobody admitted. -/
def initial (failureThreshold resetTimeout : ℤ) : System :=
  ⟨{ failureThreshold, resetTimeout }, ∅⟩

/-- A half-open breaker has admitted its one trial request, and somebody is still to report. -/
def Inv (s : System) : Prop :=
  s.breaker.halfOpenTrialRequests = 1 ∧
    (s.breaker.state = .HalfOpen → s.breaker.halfOpenInFlight = 1 ∧ s.outstanding.Nonempty)

theorem Inv.step {s t : System} (hinv : s.Inv) (hstep : Step s t) : t.Inv := by
  obtain ⟨htrials, hhalf⟩ := hinv
  cases hstep with
  | @admitted w now b hw hallow =>
    have hnonempty : (insert w s.outstanding).Nonempty := ⟨w, Finset.mem_insert_self w _⟩
    rcases s.breaker.allowRequest_cases now with ⟨hstate, h⟩ | ⟨-, -, h⟩ | ⟨-, -, -, h⟩ |
      ⟨-, -, -, h⟩ | ⟨-, -, h⟩ | ⟨hstate, hlt, -⟩
    · obtain rfl : s.breaker = b := by simpa [h] using hallow
      exact ⟨htrials, fun hopen => by simp [hstate] at hopen⟩
    · simp [h] at hallow
    · simp [h] at hallow
    · obtain rfl := (Prod.mk.inj (h.symm.trans hallow)).2
      exact ⟨htrials, fun _ => ⟨rfl, hnonempty⟩⟩
    · simp [h] at hallow
    · -- the one trial request is out already
      have := (hhalf hstate).1
      omega
  | @refused w now b hw hallow =>
    rcases s.breaker.allowRequest_cases now with ⟨-, h⟩ | ⟨-, -, h⟩ | ⟨-, -, hzero, -⟩ |
      ⟨-, -, -, h⟩ | ⟨-, -, h⟩ | ⟨-, -, h⟩
    · simp [h] at hallow
    · obtain rfl := (Prod.mk.inj (h.symm.trans hallow)).2
      exact ⟨htrials, hhalf⟩
    · omega
    · simp [h] at hallow
    · obtain rfl := (Prod.mk.inj (h.symm.trans hallow)).2
      exact ⟨htrials, hhalf⟩
    · simp [h] at hallow
  | reported ok now hw =>
    exact ⟨(s.breaker.report_halfOpenTrialRequests ok now).trans htrials,
      fun h => absurd h (s.breaker.report_state_ne_halfOpen ok now)⟩

theorem inv_of_reachable {failureThreshold resetTimeout : ℤ} {s : System}
    (h : Relation.ReflTransGen Step (initial failureThreshold resetTimeout) s) : s.Inv := by
  induction h with
  | refl => exact ⟨rfl, fun h => by simp [initial] at h⟩
  | tail _ hstep ih => exact ih.step hstep

/-- **A half-open breaker is never stuck.** In every reachable state, a half-open breaker counts one
trial request in flight and some admitted request is unreported; the report of any unreported request
leaves the half-open state; and with nothing outstanding the breaker is closed or open. -/
theorem halfOpen_not_stuck (failureThreshold resetTimeout : ℤ) (s : System)
    (h : Relation.ReflTransGen Step (initial failureThreshold resetTimeout) s) :
    (s.breaker.state = .HalfOpen → s.breaker.halfOpenInFlight = 1 ∧ s.outstanding.Nonempty) ∧
    (∀ w ∈ s.outstanding, ∀ ok now,
      Step s ⟨s.breaker.report ok now, s.outstanding.erase w⟩ ∧
        (s.breaker.report ok now).state ≠ .HalfOpen) ∧
    (s.outstanding = ∅ → s.breaker.state = .Closed ∨ s.breaker.state = .Open) := by
  obtain ⟨-, hhalf⟩ := inv_of_reachable h
  refine ⟨hhalf, fun w hw ok now => ⟨.reported ok now hw, s.breaker.report_state_ne_halfOpen ok now⟩,
    fun hempty => ?_⟩
  cases hstate : s.breaker.state with
  | Closed => exact .inl rfl
  | Open => exact .inr rfl
  | HalfOpen =>
    obtain ⟨w, hw⟩ := (hhalf hstate).2
    simp [hempty] at hw

/-- One worker has failed, and after the reset timeout another one is on trial. -/
def onTrial : System :=
  ⟨{ failureThreshold := 1, resetTimeout := 3, state := .HalfOpen, halfOpenInFlight := 1,
     openedAt := 5 }, {1}⟩

theorem halfOpen_not_stuck_onTrial :
    Relation.ReflTransGen Step (initial 1 3) onTrial ∧
      (onTrial.breaker.halfOpenInFlight = 1 ∧ onTrial.outstanding.Nonempty) ∧
      (onTrial.breaker.report true 9).state ≠ .HalfOpen ∧
      (onTrial.breaker.report false 9).state ≠ .HalfOpen := by
  have hadmit : Step (initial 1 3) ⟨(initial 1 3).breaker, {0}⟩ :=
    @Step.admitted (initial 1 3) 0 0 _ (by decide) rfl
  have hfail : Step ⟨(initial 1 3).breaker, {0}⟩ ⟨(initial 1 3).breaker.trip 5, ∅⟩ :=
    @Step.reported ⟨(initial 1 3).breaker, {0}⟩ 0 false 5 (by decide)
  have htrial : Step ⟨(initial 1 3).breaker.trip 5, ∅⟩ onTrial :=
    @Step.admitted ⟨(initial 1 3).breaker.trip 5, ∅⟩ 1 8 _ (by decide) rfl
  have hreach : Relation.ReflTransGen Step (initial 1 3) onTrial :=
    ((Relation.ReflTransGen.single hadmit).tail hfail).tail htrial
  obtain ⟨hhalf, hreport, -⟩ := halfOpen_not_stuck 1 3 onTrial hreach
  exact ⟨hreach, hhalf rfl, (hreport 1 (by decide) true 9).2, (hreport 1 (by decide) false 9).2⟩

end System

end ApiGateway.Resilience
