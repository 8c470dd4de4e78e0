import ApiGateway.Resilience.CircuitBreaker
import Mathlib.Data.List.TakeWhile
import Mathlib.Order.Lattice

/-!
# The breaker by its history

The fields of a breaker, explained by the calls made to it. A history lists the calls from the newest to
the oldest, with what each did; `Run` says that it is the history of a breaker whose clock does not run
backwards. `History` is the joint invariant: the failure counter, the timer and the trial counter are
functions of the history. The rules a caller relies on follow from it.
-/

namespace ApiGateway.Resilience

/-- The three calls. -/
inductive Call where
  | allow
  | success
  | failure
deriving DecidableEq, Repr

/-- Run a call at time `now`; the result is that of `allowRequest`. -/
def Call.run (b : CircuitBreaker) (now : ℤ) : Call → Bool × CircuitBreaker
  | .allow => b.allowRequest now
  | .success => (false, b.onSuccess)
  | .failure => (false, b.onFailure now)

/-- What a call did: the states around it, whether it admitted a request, whether it tripped. -/
structure Record where
  call : Call
  time : ℤ
  before : CircuitState
  after : CircuitState
  admitted : Bool
  tripped : Bool
deriving DecidableEq, Repr

namespace CircuitBreaker

/-- The record of a call. -/
def record (b : CircuitBreaker) (c : Call) (now : ℤ) : Record where
  call := c
  time := now
  before := b.state
  after := (c.run b now).2.state
  admitted := (c.run b now).1
  tripped := c = .failure ∧ b.Trips

/-- The histories of calls in lock order, newest call first, with a clock that does not run backwards. -/
inductive Run (b₀ : CircuitBreaker) : List Record → CircuitBreaker → Prop
  | nil : Run b₀ [] b₀
  | call {h : List Record} {b : CircuitBreaker} (c : Call) (now : ℤ) : Run b₀ h b →
      (∀ r ∈ h.head?, r.time ≤ now) → Run b₀ (b.record c now :: h) (c.run b now).2

/-! ## What a history says -/

/-- The calls since the later of the last success and the last trip. -/
def sinceReset (h : List Record) : List Record :=
  h.takeWhile fun r => r.call ≠ .success ∧ ¬ r.tripped

/-- The number of failures since then. -/
def failuresSinceReset (h : List Record) : ℕ := (sinceReset h).countP (·.call = .failure)

/-- The time of the last trip. -/
def lastTrip (h : List Record) : Option ℤ := (h.find? (·.tripped)).map (·.time)

/-- The number of requests admitted since the breaker last became half-open, by the call that made it
half-open or later. -/
def admissionsSinceHalfOpen : List Record → ℕ
  | [] => 0
  | r :: h => (if r.admitted then 1 else 0)
      + (if r.before = .Open ∧ r.after = .HalfOpen then 0 else admissionsSinceHalfOpen h)

theorem failuresSinceReset_allow (b : CircuitBreaker) (now : ℤ) (h : List Record) :
    failuresSinceReset (b.record .allow now :: h) = failuresSinceReset h := by
  simp [failuresSinceReset, sinceReset, record]

theorem failuresSinceReset_success (b : CircuitBreaker) (now : ℤ) (h : List Record) :
    failuresSinceReset (b.record .success now :: h) = 0 := by
  simp [failuresSinceReset, sinceReset, record]

theorem failuresSinceReset_trip {b : CircuitBreaker} (ht : b.Trips) (now : ℤ) (h : List Record) :
    failuresSinceReset (b.record .failure now :: h) = 0 := by
  simp [failuresSinceReset, sinceReset, record, ht]

theorem failuresSinceReset_failure {b : CircuitBreaker} (ht : ¬ b.Trips) (now : ℤ)
    (h : List Record) :
    failuresSinceReset (b.record .failure now :: h) = failuresSinceReset h + 1 := by
  simp [failuresSinceReset, sinceReset, record, ht]

theorem lastTrip_cons (b : CircuitBreaker) (c : Call) (now : ℤ) (h : List Record) :
    lastTrip (b.record c now :: h) = if c = .failure ∧ b.Trips then some now else lastTrip h := by
  by_cases ht : c = .failure ∧ b.Trips
  · simp [lastTrip, record, ht]
  · rw [if_neg ht, lastTrip, List.find?_cons_of_neg (by simpa [record] using ht), ← lastTrip]

/-! ## The invariant -/

/-- What a breaker's fields say about its history. -/
structure History (b₀ : CircuitBreaker) (h : List Record) (b : CircuitBreaker) : Prop where
  failureThreshold : b.failureThreshold = b₀.failureThreshold
  resetTimeout : b.resetTimeout = b₀.resetTimeout
  trialRequests : b.halfOpenTrialRequests = b₀.halfOpenTrialRequests
  failures : b.consecutiveFailures = failuresSinceReset h
  below : b.consecutiveFailures < b₀.failureThreshold
  opened : b.state = .Open → lastTrip h = some b.openedAt
  waited : ∀ t, lastTrip h = some t → b.state = .Open ∨
    ∃ r ∈ h.head?, b₀.resetTimeout ≤ r.time - t
  trials : b.state = .HalfOpen → b.halfOpenInFlight = admissionsSinceHalfOpen h ∧
    b.halfOpenInFlight ≤ max b₀.halfOpenTrialRequests 0

variable {b₀ b : CircuitBreaker} {h : List Record}

/-- A call that does not trip keeps what is known about the last trip, as long as an open breaker stays
open or has waited long enough. -/
theorem History.waited_cons (hist : History b₀ h b) {c : Call} {now : ℤ}
    (htime : ∀ r ∈ h.head?, r.time ≤ now) (hno : ¬ (c = .failure ∧ b.Trips))
    (hopen : b.state = .Open → (c.run b now).2.state = .Open ∨
      b₀.resetTimeout ≤ now - b.openedAt) :
    ∀ t, lastTrip (b.record c now :: h) = some t → (c.run b now).2.state = .Open ∨
      ∃ r ∈ (b.record c now :: h).head?, b₀.resetTimeout ≤ r.time - t := by
  intro t ht
  rw [lastTrip_cons, if_neg hno] at ht
  have hnow : b₀.resetTimeout ≤ now - t →
      ∃ r ∈ (b.record c now :: h).head?, b₀.resetTimeout ≤ r.time - t :=
    fun hle => ⟨b.record c now, by simp, hle⟩
  rcases hist.waited t ht with hstate | ⟨r, hr, hle⟩
  · have hat : b.openedAt = t := Option.some.inj ((hist.opened hstate).symm.trans ht)
    exact (hopen hstate).imp_right fun hle => hnow (hat ▸ hle)
  · have := htime r hr
    exact .inr (hnow (by omega))

theorem History.allow (hist : History b₀ h b) {now : ℤ} (htime : ∀ r ∈ h.head?, r.time ≤ now) :
    History b₀ (b.record .allow now :: h) (b.allowRequest now).2 := by
  have hwaited := hist.waited_cons (c := .allow) htime (by simp)
  have hlast : lastTrip (b.record .allow now :: h) = lastTrip h := by simp [lastTrip_cons]
  have hfail := failuresSinceReset_allow b now h
  have hadm : admissionsSinceHalfOpen (b.record .allow now :: h)
      = (if (b.allowRequest now).1 then 1 else 0) + (if b.state = .Open ∧
        (b.allowRequest now).2.state = .HalfOpen then 0 else admissionsSinceHalfOpen h) := rfl
  rw [show (Call.run b now .allow) = b.allowRequest now from rfl] at hwaited
  rcases b.allowRequest_cases now with ⟨hstate, heq⟩ | ⟨hstate, hlt, heq⟩ | ⟨hstate, hle, hzero, heq⟩ |
    ⟨hstate, hle, hpos, heq⟩ | ⟨hstate, hfull, heq⟩ | ⟨hstate, hroom, heq⟩
  all_goals rw [heq] at hwaited hadm ⊢
  · exact ⟨hist.failureThreshold, hist.resetTimeout, hist.trialRequests, hfail ▸ hist.failures,
      hist.below, hlast ▸ hist.opened, hwaited (by simp [hstate]), fun hhalf => by simp [hstate] at hhalf⟩
  · exact ⟨hist.failureThreshold, hist.resetTimeout, hist.trialRequests, hfail ▸ hist.failures,
      hist.below, hlast ▸ hist.opened, hwaited (fun _ => .inl hstate),
      fun hhalf => by simp [hstate] at hhalf⟩
  · refine ⟨hist.failureThreshold, hist.resetTimeout, hist.trialRequests, hfail ▸ hist.failures,
      hist.below, by simp, hwaited (fun _ => .inr (hist.resetTimeout ▸ hle)), fun _ => ?_⟩
    simp [hadm, hstate]
  · refine ⟨hist.failureThreshold, hist.resetTimeout, hist.trialRequests, hfail ▸ hist.failures,
      hist.below, by simp, hwaited (fun _ => .inr (hist.resetTimeout ▸ hle)), fun _ => ?_⟩
    have := hist.trialRequests
    refine ⟨by simp [hadm, hstate], ?_⟩
    simp only
    omega
  · refine ⟨hist.failureThreshold, hist.resetTimeout, hist.trialRequests, hfail ▸ hist.failures,
      hist.below, hlast ▸ hist.opened, hwaited (by simp [hstate]), fun _ => ?_⟩
    obtain ⟨hcount, hmax⟩ := hist.trials hstate
    exact ⟨by simpa [hadm, hstate] using hcount, hmax⟩
  · refine ⟨hist.failureThreshold, hist.resetTimeout, hist.trialRequests, hfail ▸ hist.failures,
      hist.below, hlast ▸ hist.opened, hwaited (by simp [hstate]), fun _ => ?_⟩
    obtain ⟨hcount, hmax⟩ := hist.trials hstate
    have := hist.trialRequests
    refine ⟨?_, ?_⟩
    · simp only [hadm, hstate, hcount]
      simp
      omega
    · simp only
      omega

theorem History.success (hist : History b₀ h b) (hpos : 1 ≤ b₀.failureThreshold) {now : ℤ}
    (htime : ∀ r ∈ h.head?, r.time ≤ now) :
    History b₀ (b.record .success now :: h) b.onSuccess := by
  have hwaited := hist.waited_cons (c := .success) htime (by simp)
  have hlast : lastTrip (b.record .success now :: h) = lastTrip h := by simp [lastTrip_cons]
  have hfail := failuresSinceReset_success b now h
  rw [show (Call.run b now .success).2 = b.onSuccess from rfl] at hwaited
  by_cases hstate : b.state = .HalfOpen
  · have heq : b.onSuccess
        = { b with consecutiveFailures := 0, state := .Closed, halfOpenInFlight := 0 } := by
      simp [onSuccess, hstate]
    rw [heq] at hwaited ⊢
    exact ⟨hist.failureThreshold, hist.resetTimeout, hist.trialRequests, by simp [hfail],
      by simpa using by omega, by simp, hwaited (by simp [hstate]), by simp⟩
  · have heq : b.onSuccess = { b with consecutiveFailures := 0 } := by simp [onSuccess, hstate]
    rw [heq] at hwaited ⊢
    exact ⟨hist.failureThreshold, hist.resetTimeout, hist.trialRequests, by simp [hfail],
      by simpa using by omega, hlast ▸ hist.opened, hwaited .inl, fun hhalf => absurd hhalf hstate⟩

theorem History.failure (hist : History b₀ h b) (hpos : 1 ≤ b₀.failureThreshold) {now : ℤ}
    (htime : ∀ r ∈ h.head?, r.time ≤ now) :
    History b₀ (b.record .failure now :: h) (b.onFailure now) := by
  by_cases ht : b.Trips
  · have hlast : lastTrip (b.record .failure now :: h) = some now := by simp [lastTrip_cons, ht]
    have hfail := failuresSinceReset_trip ht now h
    rw [onFailure_of_trips ht, trip]
    exact ⟨hist.failureThreshold, hist.resetTimeout, hist.trialRequests, by simp [hfail],
      by simpa using by omega, fun _ => hlast, fun _ _ => .inl rfl, by simp⟩
  · have hwaited := hist.waited_cons (c := .failure) htime (by simp [ht])
    have hlast : lastTrip (b.record .failure now :: h) = lastTrip h := by simp [lastTrip_cons, ht]
    have hfail := failuresSinceReset_failure ht now h
    obtain ⟨hstate, hroom⟩ := not_or.mp ht
    rw [show (Call.run b now .failure).2 = b.onFailure now from rfl] at hwaited
    rw [onFailure_of_not_trips ht] at hwaited ⊢
    have hthreshold := hist.failureThreshold
    refine ⟨hthreshold, hist.resetTimeout, hist.trialRequests, ?_, ?_, hlast ▸ hist.opened,
      hwaited .inl, fun hhalf => absurd hhalf hstate⟩
    · simp only [hfail, hist.failures]
      push_cast
      rfl
    · simp only
      omega

/-- **Every run keeps the invariant.** -/
theorem Run.history (hpos : 1 ≤ b₀.failureThreshold)
    (hfresh : b₀.state = .Closed ∧ b₀.consecutiveFailures = 0) (run : Run b₀ h b) :
    History b₀ h b := by
  induction run with
  | nil =>
    exact ⟨rfl, rfl, rfl, hfresh.2, by omega, by simp [hfresh.1], by simp [lastTrip],
      by simp [hfresh.1]⟩
  | call c now _ htime ih =>
    cases c with
    | allow => exact ih.allow htime
    | success => exact ih.success hpos htime
    | failure => exact ih.failure hpos htime

/-! ## What callers rely on -/

/-- Every record of a run was made at the end of a run. -/
theorem Run.split {post pre : List Record} {r : Record} (run : Run b₀ (post ++ r :: pre) b) :
    ∃ b' c now, Run b₀ pre b' ∧ (∀ x ∈ pre.head?, x.time ≤ now) ∧ r = b'.record c now := by
  induction post generalizing b with
  | nil =>
    cases run with
    | call c now hrun htime => exact ⟨_, c, now, hrun, htime, rfl⟩
  | cons x post ih =>
    cases run with
    | call c now hrun _ => exact ih hrun

/-- The newest record is the latest. -/
theorem Run.time_le (run : Run b₀ h b) {now : ℤ} (htime : ∀ r ∈ h.head?, r.time ≤ now) :
    ∀ r ∈ h, r.time ≤ now := by
  induction run generalizing now with
  | nil => simp
  | @call h b c t _ ht ih =>
    have hnow : t ≤ now := htime (b.record c t) (by simp)
    intro r hr
    rcases List.mem_cons.mp hr with rfl | hr
    · exact hnow
    · exact (ih ht r hr).trans hnow

/-- The last trip is no earlier than any trip. -/
theorem Run.exists_lastTrip (run : Run b₀ h b) {r : Record} (hr : r ∈ h) (ht : r.tripped = true) :
    ∃ t, lastTrip h = some t ∧ r.time ≤ t := by
  induction run with
  | nil => simp at hr
  | @call h b c now hrun htime ih =>
    rw [lastTrip_cons]
    rcases List.mem_cons.mp hr with rfl | hr
    · exact ⟨now, if_pos (by simpa [record] using ht), le_rfl⟩
    · split
      · exact ⟨now, rfl, hrun.time_le htime r hr⟩
      · exact ih hr

/-- A trip out of the closed state ends a series of failures as long as the threshold. -/
theorem History.exists_series (hist : History b₀ h b) {c : Call} {now : ℤ}
    (ht : (b.record c now).tripped = true) (hclosed : b.state = .Closed) :
    ∃ recent older, b.record c now :: h = recent ++ older ∧
      (recent.countP (·.call = .failure) : ℤ) = b₀.failureThreshold ∧
      ∀ x ∈ recent, x.call ≠ .success := by
  obtain ⟨rfl, htrips⟩ : c = .failure ∧ b.Trips := by simpa [record] using ht
  have hfull := htrips.resolve_left (by simp [hclosed])
  have hbelow := hist.below
  have hcount := hist.failures
  have hthreshold := hist.failureThreshold
  obtain ⟨older, holder⟩ : sinceReset h <+: h := List.takeWhile_prefix _
  refine ⟨b.record .failure now :: sinceReset h, older, by rw [List.cons_append, holder], ?_, ?_⟩
  · rw [List.countP_cons_of_pos (by simp [record])]
    rw [failuresSinceReset] at hcount
    push_cast
    omega
  · intro x hx
    rcases List.mem_cons.mp hx with rfl | hx
    · simp [record]
    · have := List.mem_takeWhile_imp hx
      simp only [decide_eq_true_eq] at this
      exact this.1

/-- Within the reset timeout of a trip, requests are refused. -/
theorem History.refused (hist : History b₀ h b) {t now : ℤ} (hlast : lastTrip h = some t)
    (htime : ∀ r ∈ h.head?, r.time ≤ now) (hlt : now - t < b₀.resetTimeout) :
    (b.allowRequest now).1 = false := by
  rcases hist.waited t hlast with hstate | ⟨r, hr, hle⟩
  · have hat : b.openedAt = t := Option.some.inj ((hist.opened hstate).symm.trans hlast)
    have hclosed : ¬ b.resetTimeout ≤ now - b.openedAt := by
      rw [hist.resetTimeout, hat]
      omega
    simp [allowRequest, hstate, hclosed]
  · have := htime r hr
    omega

/-- Requests are refused for one of two reasons. -/
theorem History.reason_of_refused (hist : History b₀ h b) {now : ℤ}
    (hrefused : (b.allowRequest now).1 = false) :
    (∃ t, lastTrip h = some t ∧ now - t < b₀.resetTimeout) ∨
    ((b.allowRequest now).2.state = .HalfOpen ∧
      (admissionsSinceHalfOpen (b.record .allow now :: h) : ℤ)
        = max b₀.halfOpenTrialRequests 0) := by
  have htrials := hist.trialRequests
  have hadm : admissionsSinceHalfOpen (b.record .allow now :: h)
      = (if (b.allowRequest now).1 then 1 else 0) + (if b.state = .Open ∧
        (b.allowRequest now).2.state = .HalfOpen then 0 else admissionsSinceHalfOpen h) := rfl
  rcases b.allowRequest_cases now with ⟨-, heq⟩ | ⟨hstate, hlt, -⟩ | ⟨hstate, -, hzero, heq⟩ |
    ⟨-, -, -, heq⟩ | ⟨hstate, hfull, heq⟩ | ⟨-, -, heq⟩
  · simp [heq] at hrefused
  · exact .inl ⟨b.openedAt, hist.opened hstate, hist.resetTimeout ▸ hlt⟩
  · refine .inr ⟨by rw [heq], ?_⟩
    simp only [hadm, heq, hstate]
    simp
    omega
  · simp [heq] at hrefused
  · refine .inr ⟨by rw [heq]; exact hstate, ?_⟩
    obtain ⟨hcount, hmax⟩ := hist.trials hstate
    simp only [hadm, heq, hstate]
    simp
    omega
  · simp [heq] at hrefused

/-- **Breaker safety over whole runs.** For every run of a new breaker:
the failure counter is the number of failures since the later of the last success and the last trip, and
below the threshold; a trip out of the closed state ends a series of as many failures as the threshold
without a success between them; after a trip no request is admitted within the reset timeout; and a
request is refused only within the reset timeout of the last trip, or in the half-open state when the
trial requests have been granted since it was entered. -/
theorem run_safe (failureThreshold resetTimeout halfOpenTrialRequests : ℤ)
    (hpos : 1 ≤ failureThreshold) {h : List Record} {b : CircuitBreaker}
    (run : Run { failureThreshold, resetTimeout, halfOpenTrialRequests } h b) :
    (b.consecutiveFailures = failuresSinceReset h ∧ b.consecutiveFailures < failureThreshold) ∧
    (∀ post r pre, h = post ++ r :: pre → r.tripped = true → r.before = .Closed →
      ∃ recent older, r :: pre = recent ++ older ∧
        (recent.countP (·.call = .failure) : ℤ) = failureThreshold ∧
        ∀ x ∈ recent, x.call ≠ .success) ∧
    (∀ post r pre, h = post ++ r :: pre → r.call = .allow →
      ∀ t ∈ pre, t.tripped = true → r.time - t.time < resetTimeout → r.admitted = false) ∧
    (∀ post r pre, h = post ++ r :: pre → r.call = .allow → r.admitted = false →
      (∃ t, lastTrip pre = some t ∧ r.time - t < resetTimeout) ∨
      (r.after = .HalfOpen ∧
        (admissionsSinceHalfOpen (r :: pre) : ℤ) = max halfOpenTrialRequests 0)) := by
  have hist := run.history hpos ⟨rfl, rfl⟩
  refine ⟨⟨hist.failures, hist.below⟩, ?_, ?_, ?_⟩
  · rintro post r pre rfl htrip hclosed
    obtain ⟨b', c, now, hrun, -, rfl⟩ := run.split
    exact (hrun.history hpos ⟨rfl, rfl⟩).exists_series htrip hclosed
  · rintro post r pre rfl hallow t ht htrip hlt
    obtain ⟨b', c, now, hrun, htime, rfl⟩ := run.split
    obtain rfl : c = .allow := hallow
    obtain ⟨t', hlast, hle⟩ := hrun.exists_lastTrip ht htrip
    have hlt' : now - t.time < resetTimeout := hlt
    exact (hrun.history hpos ⟨rfl, rfl⟩).refused hlast htime (by simpa using by omega)
  · rintro post r pre rfl hallow hrefused
    obtain ⟨b', c, now, hrun, -, rfl⟩ := run.split
    obtain rfl : c = .allow := hallow
    exact (hrun.history hpos ⟨rfl, rfl⟩).reason_of_refused hrefused

/-- Two failures trip a breaker, and it is asked too early. -/
theorem run_safe_tripped :
    ∃ h b, Run { failureThreshold := 2, resetTimeout := 10 } h b ∧
      b.consecutiveFailures = failuresSinceReset h ∧ b.consecutiveFailures < 2 := by
  have hrun := (((@Run.nil { failureThreshold := 2, resetTimeout := 10 }).call .failure 1
    (by simp)).call .failure 4 (by simp [record])).call .allow 7 (by simp [record])
  exact ⟨_, _, hrun, (run_safe 2 10 1 (by decide) hrun).1⟩

end CircuitBreaker

end ApiGateway.Resilience
