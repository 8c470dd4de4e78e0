import ApiGateway.Resilience.BreakerHistory

/-!
# Late outcomes

`onSuccess` and `onFailure` do not say which request they report. A slow request that was admitted before
the breaker tripped may report in any later state, and the breaker takes its outcome for that of a trial
request: it can close a half-open breaker, trip it again, or restart the timer of an open one.

`Traffic` is a run of requests, each of which asks once and, if it is admitted, reports at most once.
`Steady` says that late outcomes do not steer the breaker, and `steady_iff` when this is so: a late
outcome must not meet a half-open breaker, and a late failure must not be the one that trips it.
-/

namespace ApiGateway.Resilience

/-- A call made for a request, and the breaker that it found. -/
structure Turn where
  request : ℕ
  call : Call
  time : ℤ
  before : CircuitBreaker

namespace Turn

/-- The breaker after the call. -/
def after (t : Turn) : CircuitBreaker := (t.call.run t.before t.time).2

/-- The call has admitted the request. -/
def admitted (t : Turn) : Bool := (t.call.run t.before t.time).1

/-- The call has tripped the breaker. -/
def Tripped (t : Turn) : Prop := t.call = .failure ∧ t.before.Trips

/-- The call leaves the state and the timer as they are. -/
def Idle (t : Turn) : Prop :=
  t.after.state = t.before.state ∧ t.after.openedAt = t.before.openedAt

/-- A report that finds the breaker in a state in which it does no harm: a success finds it closed or open,
and a failure does not trip it, or trips it at the very time at which it was opened. -/
def Harmless (t : Turn) : Prop :=
  match t.call with
  | .allow => True
  | .success => t.before.state ≠ .HalfOpen
  | .failure => ¬ t.before.Trips ∨ (t.before.state = .Open ∧ t.time = t.before.openedAt)

/-- **What a report does to the state and the timer** is decided by the breaker that it finds. -/
theorem idle_iff_harmless {t : Turn} (hreport : t.call ≠ .allow) : t.Idle ↔ t.Harmless := by
  obtain ⟨request, call, time, b⟩ := t
  cases call with
  | allow => exact absurd rfl hreport
  | success =>
    by_cases hhalf : b.state = .HalfOpen
    · simp [Idle, Harmless, after, Call.run, CircuitBreaker.onSuccess, hhalf]
    · simp [Idle, Harmless, after, Call.run, CircuitBreaker.onSuccess, hhalf]
  | failure =>
    by_cases htrips : b.Trips
    · simp only [Idle, Harmless, after, Call.run, CircuitBreaker.onFailure_of_trips htrips,
        CircuitBreaker.trip, htrips, not_true_eq_false, false_or]
      exact and_congr_left' eq_comm
    · simp [Idle, Harmless, after, Call.run, CircuitBreaker.onFailure_of_not_trips htrips, htrips]

/-- **What a call can do to the state**: trip the breaker, leave the state as it is, make an open breaker
half-open, or close a half-open one. Only a trip moves the timer, and an open breaker admits nobody
without becoming half-open. -/
theorem state_cases (t : Turn) :
    (t.Tripped ∧ t.after.state = .Open ∧ t.after.openedAt = t.time) ∨
    (¬ t.Tripped ∧ t.after.openedAt = t.before.openedAt ∧
      ((t.after.state = t.before.state ∧ (t.before.state = .Open → t.admitted = false)) ∨
        (t.call = .allow ∧ t.before.state = .Open ∧ t.after.state = .HalfOpen) ∨
        (t.call = .success ∧ t.before.state = .HalfOpen ∧ t.after.state = .Closed))) := by
  obtain ⟨request, call, time, b⟩ := t
  cases call with
  | allow =>
    refine .inr ⟨by simp [Tripped], ?_⟩
    simp only [after, admitted, Call.run]
    rcases b.allowRequest_cases time with ⟨hstate, heq⟩ | ⟨hstate, -, heq⟩ | ⟨hstate, -, -, heq⟩ |
      ⟨hstate, -, -, heq⟩ | ⟨hstate, -, heq⟩ | ⟨hstate, -, heq⟩
    all_goals simp [heq, hstate]
  | success =>
    refine .inr ⟨by simp [Tripped], ?_⟩
    by_cases hhalf : b.state = .HalfOpen
    · simp [after, admitted, Call.run, CircuitBreaker.onSuccess, hhalf]
    · simp [after, admitted, Call.run, CircuitBreaker.onSuccess, hhalf]
  | failure =>
    by_cases htrips : b.Trips
    · refine .inl ⟨⟨rfl, htrips⟩, ?_⟩
      simp [after, Call.run, CircuitBreaker.onFailure_of_trips htrips, CircuitBreaker.trip]
    · refine .inr ⟨by simp [Tripped, htrips], ?_⟩
      simp [after, admitted, Call.run, CircuitBreaker.onFailure_of_not_trips htrips]

/-- A call does not change the breaker's parameters. -/
theorem after_parameters (t : Turn) : t.after.resetTimeout = t.before.resetTimeout ∧
    t.after.halfOpenTrialRequests = t.before.halfOpenTrialRequests := by
  obtain ⟨request, call, time, b⟩ := t
  cases call with
  | allow =>
    rcases b.allowRequest_cases time with ⟨-, heq⟩ | ⟨-, -, heq⟩ | ⟨-, -, -, heq⟩ | ⟨-, -, -, heq⟩ |
      ⟨-, -, heq⟩ | ⟨-, -, heq⟩
    all_goals simp [after, Call.run, heq]
  | success =>
    by_cases hhalf : b.state = .HalfOpen
    · simp [after, Call.run, CircuitBreaker.onSuccess, hhalf]
    · simp [after, Call.run, CircuitBreaker.onSuccess, hhalf]
  | failure =>
    by_cases htrips : b.Trips
    · simp [after, Call.run, CircuitBreaker.onFailure_of_trips htrips, CircuitBreaker.trip]
    · simp [after, Call.run, CircuitBreaker.onFailure_of_not_trips htrips]

theorem not_admitted_of_report {t : Turn} (h : t.call ≠ .allow) : t.admitted = false := by
  obtain ⟨request, call, time, b⟩ := t
  cases call with
  | allow => exact absurd rfl h
  | success => rfl
  | failure => rfl

end Turn

/-! ## Runs of requests -/

/-- A request has been admitted. -/
def Admitted (h : List Turn) (w : ℕ) : Prop := ∃ t ∈ h, t.request = w ∧ t.admitted = true

/-- A request has been admitted before the most recent trip: a trip came after its admission. -/
def Late : List Turn → ℕ → Prop
  | [], _ => False
  | t :: h, w => (t.Tripped ∧ Admitted h w) ∨ Late h w

/-- A request has been admitted in the half-open period that still lasts: since its admission the breaker
has been half-open. -/
def OnTrial : List Turn → ℕ → Prop
  | [], _ => False
  | t :: h, w => t.after.state = .HalfOpen ∧ ((t.request = w ∧ t.admitted = true) ∨ OnTrial h w)

/-- The breaker after a history, newest call first. -/
def current (b₀ : CircuitBreaker) : List Turn → CircuitBreaker
  | [] => b₀
  | t :: _ => t.after

/-- A request asks once, and reports once if it has been admitted. -/
def Permitted (h : List Turn) (t : Turn) : Prop :=
  match t.call with
  | .allow => ∀ x ∈ h, x.request ≠ t.request
  | _ => Admitted h t.request ∧ ∀ x ∈ h, x.request = t.request → x.call = .allow

/-- The histories of any number of requests against one breaker, in lock order, newest call first. -/
inductive Traffic (b₀ : CircuitBreaker) : List Turn → Prop
  | nil : Traffic b₀ []
  | turn {h : List Turn} {t : Turn} : Traffic b₀ h → t.before = current b₀ h → Permitted h t →
      Traffic b₀ (t :: h)

/-- **Late outcomes do not steer the breaker.** -/
structure Steady (b₀ : CircuitBreaker) (h : List Turn) : Prop where
  /-- The report of a late request changes neither the state nor the timer. -/
  late : ∀ post t pre, h = post ++ t :: pre → t.call ≠ .allow → Late pre t.request → t.Idle
  /-- Only the outcome of a trial request of the current period ends the half-open state. -/
  left : ∀ post t pre, h = post ++ t :: pre → t.before.state = .HalfOpen →
    t.after.state ≠ .HalfOpen → t.call ≠ .allow ∧ OnTrial pre t.request
  /-- The timer is started by a trip out of the closed state, and restarted only by a failed trial. -/
  restarted : ∀ post t pre, h = post ++ t :: pre → t.after.openedAt ≠ t.before.openedAt →
    t.call = .failure ∧
      (t.before.state = .Closed ∨ (t.before.state = .HalfOpen ∧ OnTrial pre t.request))
  /-- The first request that asks once the reset timeout has passed since a trip out of the closed state
  is admitted. -/
  probed : ∀ post r between t pre, h = post ++ r :: (between ++ t :: pre) →
    t.Tripped → t.before.state = .Closed → r.call = .allow →
    t.time + b₀.resetTimeout ≤ r.time →
    (∀ x ∈ between, x.call = .allow → x.time < t.time + b₀.resetTimeout) → r.admitted = true

variable {b₀ : CircuitBreaker} {h : List Turn} {t : Turn}

theorem admitted_cons (w : ℕ) :
    Admitted (t :: h) w ↔ (t.request = w ∧ t.admitted = true) ∨ Admitted h w := by
  simp [Admitted]

theorem Permitted.admitted (hperm : Permitted h t) (hreport : t.call ≠ .allow) :
    Admitted h t.request := by
  obtain ⟨request, call, time, b⟩ := t
  cases call with
  | allow => exact absurd rfl hreport
  | success => exact hperm.1
  | failure => exact hperm.1

/-- Every call of a history was made at the end of a history. -/
theorem Traffic.split {post pre : List Turn} (traffic : Traffic b₀ (post ++ t :: pre)) :
    Traffic b₀ pre ∧ t.before = current b₀ pre ∧ Permitted pre t := by
  induction post with
  | nil =>
    cases traffic with
    | turn htraffic hbefore hperm => exact ⟨htraffic, hbefore, hperm⟩
  | cons x post ih =>
    cases traffic with
    | turn htraffic _ _ => exact ih htraffic

theorem Traffic.parameters (traffic : Traffic b₀ h) :
    (current b₀ h).resetTimeout = b₀.resetTimeout ∧
      (current b₀ h).halfOpenTrialRequests = b₀.halfOpenTrialRequests := by
  induction traffic with
  | nil => exact ⟨rfl, rfl⟩
  | @turn h t _ hbefore _ ih =>
    obtain ⟨hreset, htrials⟩ := t.after_parameters
    rw [hbefore] at hreset htrials
    exact ⟨hreset.trans ih.1, htrials.trans ih.2⟩

/-! ## Where the admitted requests stand -/

/-- While the breaker is open, all admitted requests are late; while it is half-open, they are late or on
trial. -/
structure Placed (h : List Turn) (b : CircuitBreaker) : Prop where
  opened : b.state = .Open → ∀ w, Admitted h w → Late h w
  halfOpen : b.state = .HalfOpen → ∀ w, Admitted h w → Late h w ∨ OnTrial h w

theorem Placed.turn (hplaced : Placed h t.before) : Placed (t :: h) t.after := by
  rcases t.state_cases with ⟨htripped, hopen, -⟩ | ⟨-, -, ⟨hsame, hrefused⟩ | ⟨-, hopen, hhalf⟩ |
    ⟨-, -, hclosed⟩⟩
  · -- a trip makes everyone late
    refine ⟨fun _ w hw => ?_, fun hhalf => by simp [hopen] at hhalf⟩
    have hno := Turn.not_admitted_of_report (t := t) (by simp [htripped.1])
    refine .inl ⟨htripped, ?_⟩
    simpa [admitted_cons, hno] using hw
  · refine ⟨fun hopen w hw => ?_, fun hhalf w hw => ?_⟩
    · have hno := hrefused (hsame ▸ hopen)
      exact .inr (hplaced.opened (hsame ▸ hopen) w (by simpa [admitted_cons, hno] using hw))
    · rcases (admitted_cons w).mp hw with hnew | hold
      · exact .inr ⟨hhalf, .inl hnew⟩
      · exact (hplaced.halfOpen (hsame ▸ hhalf) w hold).imp .inr fun htrial => ⟨hhalf, .inr htrial⟩
  · refine ⟨fun hopen' => by simp [hhalf] at hopen', fun _ w hw => ?_⟩
    rcases (admitted_cons w).mp hw with hnew | hold
    · exact .inr ⟨hhalf, .inl hnew⟩
    · exact .inl (.inr (hplaced.opened hopen w hold))
  · exact ⟨fun hopen => by simp [hclosed] at hopen, fun hhalf => by simp [hclosed] at hhalf⟩

theorem Traffic.placed (hfresh : b₀.state = .Closed) (traffic : Traffic b₀ h) :
    Placed h (current b₀ h) := by
  induction traffic with
  | nil => exact ⟨fun hopen => by simp [current, hfresh] at hopen, fun _ w hw => by simp [Admitted] at hw⟩
  | turn _ hbefore _ ih =>
    rw [← hbefore] at ih
    exact ih.turn

/-! ## When late outcomes do not steer -/

/-- Late reports do no harm. -/
def LateHarmless (h : List Turn) : Prop :=
  ∀ post t pre, h = post ++ t :: pre → Late pre t.request → t.Harmless

theorem lateHarmless_nil : LateHarmless [] := by
  intro post t pre hsplit
  simp at hsplit

theorem LateHarmless.suffix {later : List Turn} (hharmless : LateHarmless (later ++ h)) :
    LateHarmless h := by
  intro post t pre hsplit hlate
  refine hharmless (later ++ post) t pre ?_ hlate
  rw [hsplit, List.append_assoc]

theorem LateHarmless.cons (hharmless : LateHarmless h) (hnew : Late h t.request → t.Harmless) :
    LateHarmless (t :: h) := by
  intro post x pre hsplit hlate
  cases post with
  | nil =>
    obtain ⟨rfl, rfl⟩ := List.cons.inj hsplit
    exact hnew hlate
  | cons y post =>
    obtain ⟨-, hsplit⟩ := List.cons.inj hsplit
    exact hharmless post x pre hsplit hlate

/-- The report of a late request is idle. -/
theorem LateHarmless.idle (hharmless : LateHarmless h) {post pre : List Turn}
    (hsplit : h = post ++ t :: pre) (hreport : t.call ≠ .allow) (hlate : Late pre t.request) :
    t.Idle :=
  (Turn.idle_iff_harmless hreport).mpr (hharmless post t pre hsplit hlate)

/-- Outcomes that matter come from trial requests. -/
theorem LateHarmless.onTrial (hharmless : LateHarmless h) (hfresh : b₀.state = .Closed)
    (traffic : Traffic b₀ h) {post pre : List Turn} (hsplit : h = post ++ t :: pre)
    (hhalf : t.before.state = .HalfOpen) (hreport : t.call ≠ .allow) (hmoves : ¬ t.Idle) :
    OnTrial pre t.request := by
  obtain ⟨hpre, hbefore, hperm⟩ := Traffic.split (hsplit ▸ traffic)
  have hplaced := hpre.placed hfresh
  rw [← hbefore] at hplaced
  rcases hplaced.halfOpen hhalf _ (hperm.admitted hreport) with hlate | htrial
  · exact absurd (hharmless.idle hsplit hreport hlate) hmoves
  · exact htrial

/-- After a trip out of the closed state the breaker stays open with the same timer as long as no request
asks in time. -/
theorem LateHarmless.stays_open (hfresh : b₀.state = .Closed) {between pre : List Turn}
    (hharmless : LateHarmless (between ++ t :: pre)) (traffic : Traffic b₀ (between ++ t :: pre))
    (htripped : t.Tripped)
    (hearly : ∀ x ∈ between, x.call = .allow → x.time < t.time + b₀.resetTimeout) :
    (current b₀ (between ++ t :: pre)).state = .Open ∧
      (current b₀ (between ++ t :: pre)).openedAt = t.time := by
  induction between with
  | nil =>
    rcases t.state_cases with ⟨-, hopen, htime⟩ | ⟨hnot, -, -⟩
    · exact ⟨hopen, htime⟩
    · exact absurd htripped hnot
  | cons x between ih =>
    have hharmless' : LateHarmless (between ++ t :: pre) :=
      @LateHarmless.suffix _ [x] hharmless
    obtain ⟨htraffic, hbefore, hperm⟩ := @Traffic.split b₀ x [] (between ++ t :: pre) traffic
    obtain ⟨hopen, htime⟩ := ih hharmless' htraffic fun y hy => hearly y (List.mem_cons_of_mem x hy)
    rw [← hbefore] at hopen htime
    -- whether the call asks or reports, it is idle
    have hidle : x.Idle := by
      by_cases hcall : x.call = .allow
      · have hwait := hearly x List.mem_cons_self hcall
        have hreset := htraffic.parameters.1
        rw [← hbefore] at hreset
        have hlt : ¬ x.before.resetTimeout ≤ x.time - x.before.openedAt := by omega
        simp [Turn.Idle, Turn.after, hcall, Call.run, CircuitBreaker.allowRequest, hopen, hlt]
      · have hplaced := htraffic.placed hfresh
        rw [← hbefore] at hplaced
        have hlate := hplaced.opened hopen _ (hperm.admitted hcall)
        exact hharmless.idle (List.nil_append _).symm hcall hlate
    exact ⟨hidle.1.trans hopen, hidle.2.trans htime⟩

/-- **When late outcomes do not steer the breaker.** In a run of requests against a new breaker that
grants trial requests, this is so if and only if every report of a late request finds the breaker in a
state in which it does no harm. -/
theorem steady_iff (failureThreshold resetTimeout halfOpenTrialRequests : ℤ)
    (htrials : 1 ≤ halfOpenTrialRequests) {h : List Turn}
    (traffic : Traffic { failureThreshold, resetTimeout, halfOpenTrialRequests } h) :
    Steady { failureThreshold, resetTimeout, halfOpenTrialRequests } h ↔ LateHarmless h := by
  constructor
  · intro hsteady post t pre hsplit hlate
    by_cases hcall : t.call = .allow
    · simp [Turn.Harmless, hcall]
    · exact (Turn.idle_iff_harmless hcall).mp (hsteady.late post t pre hsplit hcall hlate)
  · intro hharmless
    refine ⟨fun post t pre hsplit hreport hlate => hharmless.idle hsplit hreport hlate, ?_, ?_, ?_⟩
    · -- a call of `allowRequest` does not leave the half-open state
      intro post t pre hsplit hhalf hleft
      have hreport : t.call ≠ .allow := by
        rcases t.state_cases with ⟨htripped, -, -⟩ | ⟨-, -, ⟨hsame, -⟩ | ⟨-, hopen, -⟩ | ⟨hcall, -, -⟩⟩
        · simp [htripped.1]
        · exact absurd (hsame.trans hhalf) hleft
        · simp [hhalf] at hopen
        · simp [hcall]
      have hmoves : ¬ t.Idle := fun hidle => hleft (hidle.1.trans hhalf)
      exact ⟨hreport, hharmless.onTrial rfl traffic hsplit hhalf hreport hmoves⟩
    · -- the timer is set by failures that trip, and a late one is not among them
      intro post t pre hsplit hmoved
      have hmoves : ¬ t.Idle := fun hidle => hmoved hidle.2
      rcases t.state_cases with ⟨⟨hcall, -⟩, -, -⟩ | ⟨-, hsame, -⟩
      · have hreport : t.call ≠ .allow := by simp [hcall]
        refine ⟨hcall, ?_⟩
        cases hstate : t.before.state with
        | Closed => exact .inl rfl
        | HalfOpen =>
          exact .inr ⟨rfl, hharmless.onTrial rfl traffic hsplit hstate hreport hmoves⟩
        | Open =>
          obtain ⟨hpre, hbefore, hperm⟩ := Traffic.split (hsplit ▸ traffic)
          have hplaced := hpre.placed rfl
          rw [← hbefore] at hplaced
          have hlate := hplaced.opened hstate _ (hperm.admitted hreport)
          exact absurd (hharmless.idle hsplit hreport hlate) hmoves
      · exact absurd hsame hmoved
    · -- nothing but time has passed for the breaker since it tripped
      intro post r between t pre hsplit htripped hclosed hcall hdue hearly
      obtain ⟨hpre, hbefore, -⟩ := Traffic.split (hsplit ▸ traffic)
      have hharmless' : LateHarmless (between ++ t :: pre) := by
        rw [hsplit, List.append_cons] at hharmless
        exact hharmless.suffix
      obtain ⟨hopen, htime⟩ := hharmless'.stays_open rfl hpre htripped hearly
      obtain ⟨hreset, hgranted⟩ := hpre.parameters
      rw [← hbefore] at hopen htime hreset hgranted
      have hadmits : r.before.Admits r.time := by
        refine .inr (.inl ⟨hopen, ?_, ?_⟩)
        · rw [hreset, htime]
          exact Int.le_sub_left_of_add_le hdue
        · rw [hgranted]
          exact htrials
      rw [Turn.admitted, hcall]
      exact (r.before.allowRequest_fst_iff r.time).mpr hadmits

/-- Two requests are admitted, and the failure of the first trips the breaker. -/
def oneFailed : List Turn :=
  let b : CircuitBreaker := { failureThreshold := 1, resetTimeout := 10 }
  [⟨0, .failure, 2, b⟩, ⟨1, .allow, 1, b⟩, ⟨0, .allow, 0, b⟩]

theorem traffic_oneFailed : Traffic { failureThreshold := 1, resetTimeout := 10 } oneFailed := by
  refine .turn (.turn (.turn .nil rfl ?_) rfl ?_) rfl ⟨?_, ?_⟩
  · simp [Permitted]
  · simp [Permitted]
  · exact ⟨_, List.mem_cons_of_mem _ List.mem_cons_self, rfl, rfl⟩
  · simp

theorem late_oneFailed : Late oneFailed 1 :=
  .inl ⟨⟨rfl, .inr (by decide)⟩, _, List.mem_cons_self, rfl, rfl⟩

/-- The late success of the second request does no harm while the breaker is open. -/
theorem steady_oneFailed :
    Steady { failureThreshold := 1, resetTimeout := 10 }
      (⟨1, .success, 3, current { failureThreshold := 1, resetTimeout := 10 } oneFailed⟩ :: oneFailed) := by
  have hperm : Permitted oneFailed
      ⟨1, .success, 3, current { failureThreshold := 1, resetTimeout := 10 } oneFailed⟩ := by
    refine ⟨⟨_, List.mem_cons_of_mem _ List.mem_cons_self, rfl, rfl⟩, ?_⟩
    simp [oneFailed]
  refine (steady_iff 1 10 1 le_rfl (.turn traffic_oneFailed rfl hperm)).mpr ?_
  refine .cons (.cons (.cons (.cons lateHarmless_nil ?_) ?_) ?_) fun _ => ?_
  · simp [Late]
  · simp [Late, Turn.Tripped]
  · simp [Late, Turn.Tripped]
  · show _ ≠ _
    decide

/-- After the reset timeout a third request is on trial, and the late success of the second one closes the
breaker. -/
theorem late_success_closes :
    ¬ ∀ (failureThreshold resetTimeout halfOpenTrialRequests : ℤ) (h : List Turn),
      1 ≤ failureThreshold → 1 ≤ halfOpenTrialRequests →
      Traffic { failureThreshold, resetTimeout, halfOpenTrialRequests } h →
      Steady { failureThreshold, resetTimeout, halfOpenTrialRequests } h := by
  intro hsteady
  let b : CircuitBreaker := { failureThreshold := 1, resetTimeout := 10 }
  let probe : Turn := ⟨2, .allow, 12, current b oneFailed⟩
  let report : Turn := ⟨1, .success, 13, probe.after⟩
  have hprobe : Traffic b (probe :: oneFailed) := by
    refine .turn traffic_oneFailed rfl ?_
    simp [Permitted, probe, oneFailed]
  have hreport : Traffic b (report :: probe :: oneFailed) := by
    refine .turn hprobe rfl ⟨?_, ?_⟩
    · exact ⟨⟨1, .allow, 1, b⟩, by simp [oneFailed, b], rfl, rfl⟩
    · simp [report, probe, oneFailed]
  have hidle := (hsteady 1 10 1 _ le_rfl le_rfl hreport).late [] report _ rfl (by simp [report])
    (.inr late_oneFailed)
  exact absurd hidle.1 (by decide)

end ApiGateway.Resilience
