import ApiGateway.Common.Tally
import ApiGateway.Core.Delivery
import ApiGateway.Core.Dispatch
import ApiGateway.Core.Exhausted
import ApiGateway.Observability.Registry

/-!
# The metrics add up

What the workers tell the metrics registry. A request leaves a trace of calls, one after the other, which depends
on how it was answered (`Outcome`); in between, other workers make calls too. The registry counts, so that only
the number of calls matters (`Tally.total_eq_sum`), and the counters are related at any moment of any interleaving
(`counters_consistent`).

Reference: `Gateway::Worker` and `Gateway::forwardWithResilience` in `src/core/Gateway.cpp`,
`include/observability/Metrics.hpp`.
-/

namespace ApiGateway.Core

open Str Http Observability Tally Interleaving

/-! ## Outcomes -/

/-- What the calls of the registry depend on besides the responses: the number of attempts, the log of
`forwardWithResilience`, and the clock. -/
structure Telemetry (σ ρ : Type*) where
  attempts : ℕ
  trials : ρ → HttpRequest → σ → List Trial
  micros : HttpRequest → σ → ℕ
  length_le : ∀ route req gw, (trials route req gw).length ≤ attempts

/-- Every attempt leaves one entry in the log at most. -/
theorem length_forwardLoop_le (cfg : ForwardConfig) (req : HttpRequest) (order : List (Σ _ : Bytes, Bytes))
    (ss : List Surroundings) (u : Upstream) : (forwardLoop cfg req order ss u).2.2.length ≤ ss.length := by
  induction ss generalizing u with
  | nil => exact le_rfl
  | cons s rest ih =>
    rcases forwardLoop_cons cfg req order s rest u with ⟨-, heq⟩ | ⟨i, b, -, ⟨-, heq⟩ | ⟨-, outcome, u', -, hcase⟩⟩
    · rw [heq]
      exact Nat.zero_le _
    · rw [heq]
      exact Nat.succ_le_succ (ih _)
    · rcases hcase with ⟨resp, -, heq⟩ | ⟨-, heq⟩
      · rw [heq]
        exact Nat.succ_le_succ (Nat.zero_le _)
      · rw [heq]
        exact Nat.succ_le_succ (ih _)

/-- The telemetry of the model of `forwardWithResilience`. -/
def Telemetry.ofForwarding {σ ρ : Type*} (cfg : ForwardConfig) (order : HttpRequest → List (Σ _ : Bytes, Bytes))
    (env : ρ → HttpRequest → σ → ℕ → Surroundings) (upstream : ρ → σ → Upstream)
    (micros : HttpRequest → σ → ℕ) : Telemetry σ ρ where
  attempts := cfg.attempts
  trials route req gw := (forwardWithResilience cfg req (order req) (env route req gw) (upstream route gw)).2.2
  micros := micros
  length_le route req gw := by
    rw [forwardWithResilience]
    refine (length_forwardLoop_le cfg req _ _ _).trans ?_
    rw [List.length_map, List.length_range]

/-- How a request was answered, or what else has happened to a connection. -/
inductive Outcome where
  | opened
  | closed
  | malformed
  /-- The metrics or the gateway's own health. -/
  | builtin (micros : ℕ)
  | limited (micros : ℕ)
  | unrouted (micros : ℕ)
  | hit (statusCode : ℤ) (micros : ℕ)
  | forwarded (lookedUp : Bool) (trials : List Trial) (statusCode : ℤ) (micros : ℕ)

/-- The calls in the attempts from `attempt` on. -/
def trialCalls (attempts : ℕ) : ℕ → List Trial → List MetricsCall
  | _, [] => []
  | attempt, .refused _ :: rest => .incCircuitOpen :: trialCalls attempts (attempt + 1) rest
  | attempt, .exchanged _ outcome :: rest =>
    match answer (attempt + 1 = attempts) outcome with
    | some _ => trialCalls attempts (attempt + 1) rest
    | none => .incRetries :: trialCalls attempts (attempt + 1) rest

namespace Outcome

/-- The calls of the registry, in order. -/
def calls (attempts : ℕ) : Outcome → List MetricsCall
  | opened => [.connectionOpened]
  | closed => [.connectionClosed]
  | malformed => [.recordResponse 400]
  | builtin micros => [.incRequests, .recordLatencyMicros micros, .recordResponse 200]
  | limited micros => [.incRequests, .incRateLimited, .recordLatencyMicros micros, .recordResponse 429]
  | unrouted micros => [.incRequests, .incErrors, .recordLatencyMicros micros, .recordResponse 404]
  | hit statusCode micros =>
    [.incRequests, .incCacheHit, .recordLatencyMicros micros, .recordResponse statusCode]
  | forwarded lookedUp trials statusCode micros =>
    .incRequests :: ((if lookedUp then [.incCacheMiss] else []) ++ trialCalls attempts 0 trials
      ++ (if 500 ≤ statusCode then [.incErrors] else [])
      ++ [.recordLatencyMicros micros, .recordResponse statusCode])

/-- The status of the response, if there is one. -/
def statusCode : Outcome → Option ℤ
  | opened => none
  | closed => none
  | malformed => some 400
  | builtin _ => some 200
  | limited _ => some 429
  | unrouted _ => some 404
  | hit statusCode _ => some statusCode
  | forwarded _ _ statusCode _ => some statusCode

/-- A request has been handled. -/
def handled : Outcome → Bool
  | opened => false
  | closed => false
  | malformed => false
  | _ => true

/-- There is a response. -/
def answered (o : Outcome) : Bool := o.statusCode.isSome

/-- The attempts of a call are not more than there can be. -/
def Bounded (attempts : ℕ) : Outcome → Prop
  | forwarded _ trials _ _ => trials.length ≤ attempts
  | _ => True

end Outcome

section Outcomes

variable {σ ρ : Type*} (sys : Subsystems σ ρ) (tel : Telemetry σ ρ)

/-- The outcome of the end of `handleRequest`. -/
def forwardOutcome (req : HttpRequest) (route : ρ) (lookedUp : Bool) (gw : σ) : Outcome :=
  .forwarded lookedUp (tel.trials route req gw) (sys.forwardWithResilience route req gw).1.statusCode
    (tel.micros req gw)

/-- The outcome of `handleRequest`. -/
def handleOutcome (clientIp : Bytes) (req : HttpRequest) (gw : σ) : Outcome :=
  if req.path = bytes "/metrics" then .builtin (tel.micros req gw)
  else if req.path = bytes "/gateway/health" then .builtin (tel.micros req gw)
  else
    let (allowed, gw) := sys.allow clientIp gw
    if !allowed then .limited (tel.micros req gw)
    else
      match sys.matchRoute req.path with
      | none => .unrouted (tel.micros req gw)
      | some route =>
        let cacheableRequest :=
          sys.cacheable route && (req.method = bytes "GET" || req.method = bytes "HEAD")
        if cacheableRequest then
          match sys.cacheGet req.cacheKey gw with
          | (some cached, gw) => .hit cached.statusCode (tel.micros req gw)
          | (none, gw) => forwardOutcome sys tel req route true gw
        else forwardOutcome sys tel req route false gw

/-- The outcomes of the loop over the buffered requests. -/
def serveOutcomes : ℕ → ClientConnection → σ → List Outcome
  | 0, _, _ => []
  | fuel + 1, c, gw =>
    match c.parser.parse {} with
    | (.Incomplete, _, _) => []
    | (.Error, _, _) => [.malformed]
    | (.Complete, p, req) =>
      let (requestId, gw) := sys.nextRequestId gw
      let req := { req with requestId }
      let ((c', _), gw') := handleRequest sys { c with parser := p } req gw
      handleOutcome sys tel c.clientIp req gw ::
        if c'.closeAfterWrite then [] else serveOutcomes fuel c' gw'

end Outcomes

namespace Loop

variable {σ ρ : Type*} (sys : Subsystems σ ρ) (tel : Telemetry σ ρ)

/-- The outcomes of the requests in the callback of a connection. -/
def eventOutcomes (ready : Ready) (input : Input σ) (conn : ClientConnection) : List Outcome :=
  if ready.hangup then []
  else if ready.readable then
    match recvLoop input.now input.recvs conn with
    | none => []
    | some c => serveOutcomes sys tel (c.parser.buffer.length + 1) c input.gw
  else []

/-- The outcomes of the requests in a step. -/
def Worker.served (w : Worker) : Signal σ → List Outcome
  | .dispatch input =>
    match w.phase with
    | .dispatching (ready :: _) =>
      match w.loop.callbacks.lookup ready.fd with
      | some (.onEvent fd) =>
        match w.conns.lookup fd with
        | some c => eventOutcomes sys tel ready input c.conn
        | none => []
      | _ => []
    | _ => []
  | _ => []

def Act.outcome : Act → Option Outcome
  | .connectionOpened => some .opened
  | .connectionClosed => some .closed
  | _ => none

/-- A step, with its outcomes: requests are handled before the connection is closed. -/
def Worker.report (w : Worker) (s : Signal σ) : Worker × List Outcome :=
  ((w.step sys s).1, w.served sys tel s ++ (w.step sys s).2.filterMap Act.outcome)

end Loop

/-! ## The registry counts -/

/-- What every call changes by a fixed amount is the sum of these amounts. -/
theorem after_eq_total {get : Metrics → ℤ} {f : MetricsCall → ℤ} (hzero : get {} = 0)
    (hstep : ∀ calls c, get ((Metrics.after calls).apply c) = get (Metrics.after calls) + f c)
    (calls : List MetricsCall) : get (Metrics.after calls) = total f calls := by
  induction calls using List.reverseRecOn with
  | nil => exact hzero
  | append_singleton calls c ih =>
    have hafter : Metrics.after (calls ++ [c]) = (Metrics.after calls).apply c := by
      rw [Metrics.after, List.foldl_append]
      rfl
    rw [hafter, hstep, ih, total_append, total_cons, total_nil, add_zero]

/-! ## Traces -/

section Traces

variable {attempts : ℕ} {f : MetricsCall → ℤ}

/-- `forwardWithResilience` calls two functions of the registry. -/
theorem mem_trialCalls {attempt : ℕ} {trials : List Trial} {c : MetricsCall}
    (h : c ∈ trialCalls attempts attempt trials) : c = .incCircuitOpen ∨ c = .incRetries := by
  induction trials generalizing attempt with
  | nil => cases h
  | cons t trials ih =>
    cases t with
    | refused i =>
      rcases List.mem_cons.mp h with rfl | h
      · exact .inl rfl
      · exact ih h
    | exchanged i outcome =>
      rw [trialCalls] at h
      split at h
      · exact ih h
      · rcases List.mem_cons.mp h with rfl | h
        · exact .inr rfl
        · exact ih h

theorem total_trialCalls_eq_zero (hopen : f .incCircuitOpen = 0) (hretry : f .incRetries = 0) (attempt : ℕ)
    (trials : List Trial) : total f (trialCalls attempts attempt trials) = 0 := by
  refine total_eq_zero fun c hc => ?_
  rcases mem_trialCalls hc with rfl | rfl
  · exact hopen
  · exact hretry

/-- One call for each attempt at most. -/
theorem total_trialCalls_le (hopen : f .incCircuitOpen ≤ 1) (hretry : f .incRetries ≤ 1) (attempt : ℕ)
    (trials : List Trial) : total f (trialCalls attempts attempt trials) ≤ trials.length := by
  induction trials generalizing attempt with
  | nil => exact le_rfl
  | cons t trials ih =>
    have hrest := ih (attempt + 1)
    rw [List.length_cons]
    push_cast
    cases t with
    | refused i =>
      rw [trialCalls, total_cons]
      linarith
    | exchanged i outcome =>
      rw [trialCalls]
      split
      · linarith
      · rw [total_cons]
        linarith

/-- The last attempt is not retried. -/
theorem total_retries_le (hopen : f .incCircuitOpen ≤ 0) (hretry : f .incRetries ≤ 1) {attempt : ℕ}
    {trials : List Trial} (h : attempt + trials.length ≤ attempts) :
    total f (trialCalls attempts attempt trials) ≤ (attempts - 1 - attempt : ℕ) := by
  induction trials generalizing attempt with
  | nil => exact Int.natCast_nonneg _
  | cons t trials ih =>
    rw [List.length_cons] at h
    have hrest := @ih (attempt + 1) (by omega)
    cases t with
    | refused i =>
      rw [trialCalls, total_cons]
      omega
    | exchanged i outcome =>
      rw [trialCalls]
      split
      · omega
      · rename_i hanswer
        -- an exchange that is retried is not the last attempt
        have hlast : attempt + 1 ≠ attempts := by
          intro heq
          rw [decide_eq_true heq] at hanswer
          cases outcome with
          | none => cases hanswer
          | some resp =>
            simp only [answer, if_true] at hanswer
            split at hanswer <;> cases hanswer
        rw [total_cons]
        omega

namespace Outcome

variable {o : Outcome}

/-- A request is announced first, and once. -/
theorem calls_cases (attempts : ℕ) (o : Outcome) :
    (o.handled = false ∧ ∀ c ∈ o.calls attempts, c ≠ .incRequests) ∨
      o.handled = true ∧ ∃ rest, o.calls attempts = .incRequests :: rest ∧ ∀ c ∈ rest, c ≠ .incRequests := by
  cases o with
  | opened => exact .inl ⟨rfl, by simp [calls]⟩
  | closed => exact .inl ⟨rfl, by simp [calls]⟩
  | malformed => exact .inl ⟨rfl, by simp [calls]⟩
  | builtin micros => exact .inr ⟨rfl, _, rfl, by simp⟩
  | limited micros => exact .inr ⟨rfl, _, rfl, by simp⟩
  | unrouted micros => exact .inr ⟨rfl, _, rfl, by simp⟩
  | hit statusCode micros => exact .inr ⟨rfl, _, rfl, by simp⟩
  | forwarded lookedUp trials statusCode micros =>
    refine .inr ⟨rfl, _, rfl, fun c hc => ?_⟩
    simp only [List.mem_append, List.mem_cons, List.not_mem_nil, or_false] at hc
    rcases hc with ((hc | hc) | hc) | rfl | rfl
    · split at hc <;> simp_all
    · rcases mem_trialCalls hc with rfl | rfl <;> simp
    · split at hc <;> simp_all
    · simp
    · simp

/-- What is paid for by the request. -/
theorem total_prefix_le (hf : ∀ c, c ≠ .incRequests → 0 ≤ f c) (hwhole : total f (o.calls attempts) ≤ 0)
    {p : List MetricsCall} (hp : p <+: o.calls attempts) : total f p ≤ 0 := by
  rcases calls_cases attempts o with ⟨-, hquiet⟩ | ⟨-, rest, heq, hrest⟩
  · obtain ⟨rest, hsplit⟩ := hp
    have hnonneg : 0 ≤ total f rest := total_nonneg fun c hc =>
      hf c (hquiet c (hsplit ▸ List.mem_append_right p hc))
    rw [← hsplit, total_append] at hwhole
    linarith
  · rw [heq] at hp hwhole
    exact Tally.total_prefix_le_zero (fun c hc => hf c (hrest c hc)) hwhole hp

end Outcome

end Traces

/-- A weight for each counter that a request can change. -/
structure Weights where
  requests : ℤ := 0
  errors : ℤ := 0
  cacheHits : ℤ := 0
  cacheMisses : ℤ := 0
  rateLimited : ℤ := 0
  retries : ℤ := 0
  circuitOpenRejections : ℤ := 0
  latency : ℤ := 0

namespace Weights

variable (w : Weights)

def weigh : MetricsCall → ℤ
  | .incRequests => w.requests
  | .incErrors => w.errors
  | .incCacheHit => w.cacheHits
  | .incCacheMiss => w.cacheMisses
  | .incRateLimited => w.rateLimited
  | .incRetries => w.retries
  | .incCircuitOpen => w.circuitOpenRejections
  | .recordLatencyMicros _ => w.latency
  | _ => 0

/-- The weighted sum of the counters. -/
def value (m : Metrics) : ℤ :=
  w.requests * m.requests + w.errors * m.errors + w.cacheHits * m.cacheHits + w.cacheMisses * m.cacheMisses
    + w.rateLimited * m.rateLimited + w.retries * m.retries
    + w.circuitOpenRejections * m.circuitOpenRejections + w.latency * m.latency.total

theorem value_after (calls : List MetricsCall) : w.value (Metrics.after calls) = total w.weigh calls := by
  refine after_eq_total (by simp [value]) (fun calls c => ?_) calls
  cases c with
  | recordResponse statusCode =>
    simp only [Metrics.apply, Metrics.recordResponse, weigh]
    split <;> simp [value]
  | _ =>
    simp only [value, Metrics.apply, LatencyHistogram.record, weigh]
    push_cast
    ring

/-- The counters are paid for by the requests. -/
structure Paid (attempts : ℕ) : Prop where
  nonneg : ∀ c, c ≠ .incRequests → 0 ≤ w.weigh c
  whole : ∀ o : Outcome, o.Bounded attempts → total w.weigh (o.calls attempts) ≤ 0

variable {w} in
theorem weigh_nonneg (h : 0 ≤ w.errors ∧ 0 ≤ w.cacheHits ∧ 0 ≤ w.cacheMisses ∧ 0 ≤ w.rateLimited ∧ 0 ≤ w.retries ∧
    0 ≤ w.circuitOpenRejections ∧ 0 ≤ w.latency) (c : MetricsCall) (hc : c ≠ .incRequests) : 0 ≤ w.weigh c := by
  obtain ⟨herrors, hhits, hmisses, hrate, hretries, hopen, hlatency⟩ := h
  cases c with
  | incRequests => exact absurd rfl hc
  | _ => first | assumption | exact le_rfl

variable {w} in
/-- What a request has to pay for: the limiter, the cache, or the attempts and an error. -/
theorem paid {attempts : ℕ} {t : ℤ} (hnonneg : ∀ c, c ≠ .incRequests → 0 ≤ w.weigh c)
    (htrials : ∀ trials : List Trial, trials.length ≤ attempts →
      total w.weigh (trialCalls attempts 0 trials) ≤ t)
    (hlimited : w.requests + w.rateLimited + w.latency ≤ 0) (hhit : w.requests + w.cacheHits + w.latency ≤ 0)
    (hforwarded : w.requests + w.cacheMisses + t + w.errors + w.latency ≤ 0) : w.Paid attempts := by
  have hmisses : 0 ≤ w.cacheMisses := hnonneg .incCacheMiss (by simp)
  have herrors : 0 ≤ w.errors := hnonneg .incErrors (by simp)
  have hrate : 0 ≤ w.rateLimited := hnonneg .incRateLimited (by simp)
  have ht : 0 ≤ t := htrials [] (Nat.zero_le _)
  refine ⟨hnonneg, fun o ho => ?_⟩
  cases o with
  | opened => exact le_rfl
  | closed => exact le_rfl
  | malformed => exact le_rfl
  | builtin micros =>
    simp only [Outcome.calls, total_cons, total_nil, weigh]
    linarith
  | limited micros =>
    simp only [Outcome.calls, total_cons, total_nil, weigh]
    linarith
  | unrouted micros =>
    simp only [Outcome.calls, total_cons, total_nil, weigh]
    linarith
  | hit statusCode micros =>
    simp only [Outcome.calls, total_cons, total_nil, weigh]
    linarith
  | forwarded lookedUp trials statusCode micros =>
    have hmiss : total w.weigh (if lookedUp then [.incCacheMiss] else []) ≤ w.cacheMisses := by
      split
      · exact (add_zero _).le
      · exact hmisses
    have herror : total w.weigh (if 500 ≤ statusCode then [.incErrors] else []) ≤ w.errors := by
      split
      · exact (add_zero _).le
      · exact herrors
    have htrial := htrials trials ho
    simp only [Outcome.calls, total_cons, total_append, total_nil]
    simp only [weigh] at *
    linarith

/-- A request is under way from its first call to the recording of its latency. -/
theorem underway_le {attempts : ℕ} {o : Outcome} {p : List MetricsCall} (hp : p <+: o.calls attempts) :
    total (weigh { requests := 1, latency := -1 }) p ≤ 1 := by
  have hrest : ∀ c, c ≠ .incRequests → weigh { requests := 1, latency := -1 } c ≤ 0 := by
    intro c hc
    cases c <;> simp [weigh] at hc ⊢
  rcases o.calls_cases attempts with ⟨-, hquiet⟩ | ⟨-, rest, heq, hrest'⟩
  · have hneg : 0 ≤ total (fun c => -weigh { requests := 1, latency := -1 } c) p :=
      total_nonneg fun c hc => neg_nonneg.mpr (hrest c (hquiet c (hp.subset hc)))
    rw [total_neg] at hneg
    linarith
  · rw [heq] at hp
    have hhead := total_prefix_le_head (f := weigh { requests := 1, latency := -1 }) (a := .incRequests)
      (by simp [weigh]) (fun c hc => hrest c (hrest' c hc)) hp
    exact hhead

/-- In the end, nothing is under way. -/
theorem underway_whole (attempts : ℕ) (o : Outcome) :
    total (weigh { requests := 1, latency := -1 }) (o.calls attempts) = 0 := by
  cases o with
  | forwarded lookedUp trials statusCode micros =>
    have htrial : total (weigh { requests := 1, latency := -1 }) (trialCalls attempts 0 trials) = 0 :=
      total_trialCalls_eq_zero rfl rfl 0 trials
    simp only [Outcome.calls, total_cons, total_append, htrial]
    split <;> split <;> rfl
  | _ => rfl

end Weights

/-! ## Any moment of any interleaving -/

section Runs

variable {σ ρ : Type*} (sys : Subsystems σ ρ) (tel : Telemetry σ ρ)

theorem bounded_handleOutcome (clientIp : Bytes) (req : HttpRequest) (gw : σ) :
    (handleOutcome sys tel clientIp req gw).Bounded tel.attempts := by
  have hforward : ∀ route lookedUp gw, (forwardOutcome sys tel req route lookedUp gw).Bounded tel.attempts :=
    fun route _ gw => tel.length_le route req gw
  unfold handleOutcome
  dsimp only
  split
  · trivial
  split
  · trivial
  split
  · trivial
  split
  · trivial
  split
  · split
    · trivial
    · exact hforward _ _ _
  · exact hforward _ _ _

@[simp] theorem statusCode_setHeader (resp : HttpResponse) (k v : Bytes) :
    (resp.setHeader k v).statusCode = resp.statusCode := rfl

/-- **The outcome is about the response that is queued.** -/
theorem exists_handleRequest_outcome (c : ClientConnection) (req : HttpRequest) (gw : σ) :
    ∃ resp gw', handleRequest sys c req gw = (c.queueResponse resp (!req.keepAlive), gw') ∧
      (handleOutcome sys tel c.clientIp req gw).statusCode = some resp.statusCode ∧
      (handleOutcome sys tel c.clientIp req gw).handled = true := by
  have hforward : ∀ route cacheableRequest lookedUp gw, ∃ resp gw',
      forwardRequest sys c req route cacheableRequest gw = (c.queueResponse resp (!req.keepAlive), gw') ∧
        (forwardOutcome sys tel req route lookedUp gw).statusCode = some resp.statusCode ∧
        (forwardOutcome sys tel req route lookedUp gw).handled = true := by
    intro route cacheableRequest lookedUp gw
    unfold forwardRequest
    dsimp only
    split
    · exact ⟨_, _, rfl, rfl, rfl⟩
    · exact ⟨_, _, rfl, rfl, rfl⟩
  unfold handleRequest handleOutcome
  dsimp only
  by_cases hmetrics : req.path = bytes "/metrics"
  · simp only [if_pos hmetrics]
    exact ⟨_, _, rfl, rfl, rfl⟩
  by_cases hhealth : req.path = bytes "/gateway/health"
  · simp only [if_neg hmetrics, if_pos hhealth]
    exact ⟨_, _, rfl, rfl, rfl⟩
  simp only [if_neg hmetrics, if_neg hhealth]
  cases (sys.allow c.clientIp gw).1 with
  | false => exact ⟨_, _, rfl, rfl, rfl⟩
  | true =>
    simp only [Bool.not_true, Bool.false_eq_true, if_false]
    cases sys.matchRoute req.path with
    | none => exact ⟨_, _, rfl, rfl, rfl⟩
    | some route =>
      dsimp only
      split
      · rcases sys.cacheGet req.cacheKey (sys.allow c.clientIp gw).2 with ⟨_ | cached, gw'⟩
        · exact hforward _ _ _ _
        · exact ⟨_, _, rfl, rfl, rfl⟩
      · exact hforward _ _ _ _

/-- What the loop over the requests does, and what it tells the registry. -/
inductive Reports : List Effect → List Outcome → Prop
  | nothing : Reports [] []
  | malformed : Reports [.queued (badRequest.serialize false) true] [.malformed]
  | handled (req : HttpRequest) (resp : HttpResponse) (closeAfter : Bool) {o : Outcome}
    (hstatus : o.statusCode = some resp.statusCode) (hhandled : o.handled = true)
    (hbounded : o.Bounded tel.attempts) :
    Reports [.handled req, .queued (resp.serialize (!closeAfter)) closeAfter] [o]
  | append {es es' : List Effect} {os os' : List Outcome} (h : Reports es os) (h' : Reports es' os') :
    Reports (es ++ es') (os ++ os')

theorem reports_serveLoop (fuel : ℕ) (c : ClientConnection) (gw : σ) :
    Reports tel (serveLoop sys fuel c gw).2 (serveOutcomes sys tel fuel c gw) := by
  induction fuel generalizing c gw with
  | zero => exact .nothing
  | succ fuel ih =>
    rw [serveLoop, serveOutcomes]
    rcases hparse : c.parser.parse {} with ⟨_ | _ | _, p, out⟩
    · exact .nothing
    · obtain ⟨resp, gw', heq, hstatus, hhandled⟩ := exists_handleRequest_outcome sys tel
        { c with parser := p } { out with requestId := (sys.nextRequestId gw).1 } (sys.nextRequestId gw).2
      have hbounded := bounded_handleOutcome sys tel c.clientIp
        { out with requestId := (sys.nextRequestId gw).1 } (sys.nextRequestId gw).2
      have hfirst : Reports tel _ _ := .handled { out with requestId := (sys.nextRequestId gw).1 } resp
        (!out.keepAlive) hstatus hhandled hbounded
      simp only [heq, ClientConnection.queueResponse, ClientConnection.appendWrite]
      cases hkeep : out.keepAlive with
      | false =>
        rw [hkeep] at hfirst
        exact hfirst
      | true =>
        rw [hkeep] at hfirst
        exact hfirst.append (ih _ _)
    · exact .malformed

variable {tel} in
theorem Reports.isService {es : List Effect} {os : List Outcome} (h : Reports tel es os) :
    ∀ e ∈ es, e.isService = true := by
  induction h with
  | nothing => simp
  | malformed => simp [Effect.isService]
  | handled req resp closeAfter hstatus hhandled hbounded => simp [Effect.isService]
  | append h h' ih ih' => exact List.forall_mem_append.mpr ⟨ih, ih'⟩

variable {tel} in
theorem Reports.bounded {es : List Effect} {os : List Outcome} (h : Reports tel es os) :
    ∀ o ∈ os, o.Bounded tel.attempts := by
  induction h with
  | nothing => simp
  | malformed => simp [Outcome.Bounded]
  | handled req resp closeAfter hstatus hhandled hbounded => simpa using hbounded
  | append h h' ih ih' => exact List.forall_mem_append.mpr ⟨ih, ih'⟩

/-- Flushing handles and queues nothing. -/
theorem filter_andThen {r : Option ClientConnection × List Effect}
    {f : ClientConnection → Option ClientConnection × List Effect}
    (hf : ∀ c, ∀ e ∈ (f c).2, e.isService = false) :
    (andThen r f).2.filter Effect.isService = r.2.filter Effect.isService := by
  rcases r with ⟨_ | c, es⟩
  · rfl
  · have hnone : (f c).2.filter Effect.isService = [] :=
      List.filter_eq_nil_iff.mpr fun e he => by simp [hf c e he]
    show (es ++ (f c).2).filter Effect.isService = es.filter Effect.isService
    rw [List.filter_append, hnone, List.append_nil]

namespace Loop

/-- The callback of a connection. -/
theorem reports_onEvent (ready : Ready) (input : Input σ) (c : ClientConnection) :
    Reports tel ((Core.onEvent sys (some c) (.poll ready.hangup ready.readable ready.writable input.now
      input.recvs input.sends input.sendsLater input.gw)).2.filter Effect.isService)
      (eventOutcomes sys tel ready input c) := by
  have hlater : ∀ c : ClientConnection, ∀ e ∈
      (if ready.writable then c.flushIfPossible input.sendsLater else (some c, [])).2, e.isService = false := by
    intro c
    split
    · exact isService_flushIfPossible _ _
    · simp
  rw [eventOutcomes, Core.onEvent, andThen]
  dsimp only
  rw [List.nil_append]
  cases ready.hangup with
  | true => exact .nothing
  | false =>
    simp only [Bool.false_eq_true, if_false]
    rw [filter_andThen hlater]
    cases ready.readable with
    | false => exact .nothing
    | true =>
      simp only [if_true, onReadable]
      cases recvLoop input.now input.recvs c with
      | none => exact .nothing
      | some c' =>
        have hreports := reports_serveLoop sys tel (c'.parser.buffer.length + 1) c' input.gw
        dsimp only
        rw [filter_andThen (isService_flushIfPossible input.sends), List.filter_eq_self.mpr hreports.isService]
        exact hreports

/-- What was done with connections. -/
def dids (log : List Act) : List Effect :=
  log.filterMap fun
    | .did _ e => some e
    | _ => none

theorem dids_append (log acts : List Act) : dids (log ++ acts) = dids log ++ dids acts := List.filterMap_append

theorem dids_closeConnection (w : Worker) (fd : ℤ) : dids (w.closeConnection fd).2 = [] := by
  rw [Worker.closeConnection]
  split <;> rfl

/-- **A step of a worker.** -/
theorem reports_step (w : Worker) (s : Signal σ) :
    Reports tel ((dids (w.step sys s).2).filter Effect.isService) (w.served sys tel s) := by
  cases s with
  | wait result =>
    cases result with
    | none => exact .nothing
    | some batch =>
      rw [Worker.step]
      split <;> exact .nothing
  | dispatch input =>
    cases hphase : w.phase with
    | dispatching pending =>
      cases pending with
      | nil =>
        simp only [Worker.step, Worker.served, hphase]
        exact .nothing
      | cons ready rest =>
        simp only [Worker.step, Worker.served, hphase, Worker.dispatch]
        cases hcallback : w.loop.callbacks.lookup ready.fd with
        | none => exact .nothing
        | some cb =>
          cases cb with
          | acceptAll => exact .nothing
          | onEvent fd =>
            simp only [Worker.onEvent]
            cases hconn : w.conns.lookup fd with
            | none => exact .nothing
            | some c =>
              have hreports := reports_onEvent sys tel ready input c.conn
              have hdids : ∀ l : List Effect,
                  dids (.delivered ready.fd (.client c.serial) :: l.map (.did c.serial)) = l := by
                intro l
                simp [dids, List.filterMap_map]
              dsimp only
              split
              · rw [hdids]
                exact hreports
              · rw [dids_append, hdids, dids_closeConnection, List.append_nil]
                exact hreports
    | _ =>
      simp only [Worker.step, Worker.served, hphase]
      exact .nothing
  | accept result =>
    cases result with
    | accepted fd ip now =>
      rw [Worker.step]
      split <;> exact .nothing
    | interrupted => exact .nothing
    | failed =>
      rw [Worker.step]
      split <;> exact .nothing
  | tick now order =>
    rw [Worker.step]
    split <;> exact .nothing
  | close =>
    rw [Worker.step]
    split
    · rw [dids_closeConnection]
      exact .nothing
    · exact .nothing
    · exact .nothing
    · exact .nothing
  | stop order =>
    rw [Worker.step]
    split <;> exact .nothing

theorem bounded_report (w : Worker) (s : Signal σ) :
    ∀ o ∈ (w.report sys tel s).2, o.Bounded tel.attempts := by
  rw [Worker.report, List.forall_mem_append]
  refine ⟨(reports_step sys tel w s).bounded, fun o ho => ?_⟩
  obtain ⟨act, -, hact⟩ := List.mem_filterMap.mp ho
  cases act <;> cases hact <;> trivial

/-- The outcomes of a worker. -/
def outcomes (listenFd : ℤ) (es : List (Signal σ)) : List Outcome :=
  (Reactive.run (Worker.report sys tel) (Worker.start listenFd) es).2

/-- The calls of a worker to the registry. -/
def registryCalls (listenFd : ℤ) (es : List (Signal σ)) : List MetricsCall :=
  (outcomes sys tel listenFd es).flatMap (Outcome.calls tel.attempts)

theorem bounded_outcomes (listenFd : ℤ) (es : List (Signal σ)) :
    ∀ o ∈ outcomes sys tel listenFd es, o.Bounded tel.attempts := by
  refine Reactive.run_invariant (I := fun _ l => ∀ o ∈ l, Outcome.Bounded tel.attempts o) (by simp) ?_ es
  intro w l s hl
  exact List.forall_mem_append.mpr ⟨hl, bounded_report sys tel w s⟩

/-- What is paid for by the requests of each worker is paid for by all requests. -/
theorem value_le_zero {w : Weights} (hw : w.Paid tel.attempts) {n : ℕ} {listenFd : ℕ → ℤ}
    {es : ℕ → List (Signal σ)} {log : List (ℕ × MetricsCall)} (hthreads : ∀ x ∈ log, x.1 ∈ Finset.range n)
    (hlog : ∀ i ∈ Finset.range n, own i log <+: registryCalls sys tel (listenFd i) (es i)) :
    w.value (Metrics.after (log.map Prod.snd)) ≤ 0 := by
  rw [w.value_after, ← mul_zero ((Finset.range n).card : ℤ)]
  refine total_le_of_threads hthreads fun i hi => ?_
  have hbounded := bounded_outcomes sys tel (listenFd i) (es i)
  refine total_le_of_traces le_rfl (fun o ho => hw.whole o (hbounded o ho)) (fun o ho p hp => ?_) (hlog i hi)
  exact o.total_prefix_le hw.nonneg (hw.whole o (hbounded o ho)) hp

end Loop

end Runs

/-- **The counters are consistent at any moment.** However the calls of the workers are interleaved, and however
far each of them is: as many latencies as requests have been recorded, except for one request in each worker at
most; the requests that were limited or looked up in the cache are not more than all requests, nor are those
that were limited, answered from the cache or have failed; and there are as many retries and rejections as the
attempts allow. -/
theorem counters_consistent {σ ρ : Type*} (sys : Subsystems σ ρ) (tel : Telemetry σ ρ) (n : ℕ)
    (listenFd : ℕ → ℤ) (es : ℕ → List (Loop.Signal σ)) (log : List (ℕ × MetricsCall))
    (hthreads : ∀ x ∈ log, x.1 < n)
    (hlog : ∀ i < n, own i log <+: Loop.registryCalls sys tel (listenFd i) (es i)) :
    let m := Metrics.after (log.map Prod.snd)
    (m.latency.total ≤ m.requests ∧ m.requests ≤ m.latency.total + n) ∧
    m.rateLimited + m.cacheHits + m.cacheMisses ≤ m.requests ∧
    m.rateLimited + m.cacheHits + m.errors ≤ m.requests ∧
    m.retries ≤ (tel.attempts - 1) * m.requests ∧
    m.retries + m.circuitOpenRejections ≤ tel.attempts * m.requests := by
  intro m
  have hpaid : ∀ w : Weights, w.Paid tel.attempts → w.value m ≤ 0 := fun w hw =>
    Loop.value_le_zero sys tel hw (fun x hx => Finset.mem_range.mpr (hthreads x hx))
      fun i hi => hlog i (Finset.mem_range.mp hi)
  have hunderway : Weights.value { requests := 1, latency := -1 } m ≤ n * 1 := by
    rw [Weights.value_after, ← Finset.card_range n]
    refine total_le_of_threads (fun x hx => Finset.mem_range.mpr (hthreads x hx)) fun i hi => ?_
    exact total_le_of_traces zero_le_one (fun o _ => (Weights.underway_whole _ o).le)
      (fun o _ p hp => Weights.underway_le hp) (hlog i (Finset.mem_range.mp hi))
  have hlatency := hpaid { requests := -1, latency := 1 } (Weights.paid (t := 0)
    (Weights.weigh_nonneg (by simp))
    (fun trials _ => (total_trialCalls_eq_zero rfl rfl 0 trials).le) (by simp) (by simp) (by simp))
  have hlookups := hpaid { requests := -1, rateLimited := 1, cacheHits := 1, cacheMisses := 1 }
    (Weights.paid (t := 0) (Weights.weigh_nonneg (by simp))
      (fun trials _ => (total_trialCalls_eq_zero rfl rfl 0 trials).le) (by simp) (by simp) (by simp))
  have herrors := hpaid { requests := -1, rateLimited := 1, cacheHits := 1, errors := 1 }
    (Weights.paid (t := 0) (Weights.weigh_nonneg (by simp))
      (fun trials _ => (total_trialCalls_eq_zero rfl rfl 0 trials).le) (by simp) (by simp) (by simp))
  have hretries := hpaid { requests := -(tel.attempts - 1 : ℕ), retries := 1 }
    (Weights.paid (t := (tel.attempts - 1 : ℕ)) (Weights.weigh_nonneg (by simp))
      (fun trials hlen => total_retries_le le_rfl le_rfl (by omega)) (by simp) (by simp) (by simp))
  have hattempts := hpaid { requests := -tel.attempts, retries := 1, circuitOpenRejections := 1 }
    (Weights.paid (t := tel.attempts) (Weights.weigh_nonneg (by simp))
      (fun trials hlen => (total_trialCalls_le le_rfl le_rfl 0 trials).trans (by exact_mod_cast hlen))
      (by simp) (by simp) (by simp))
  simp only [Weights.value, zero_mul, add_zero, one_mul, neg_mul, mul_one] at hunderway hlatency hlookups
  simp only [Weights.value, zero_mul, add_zero, one_mul, neg_mul] at herrors hretries hattempts
  refine ⟨⟨by omega, by omega⟩, by omega, by omega, ?_, ?_⟩
  · zify
    linarith
  · zify
    linarith

/-- Requests are forwarded to a backend with an open breaker and to one that is busy. -/
def busyUpstream : Subsystems Unit Unit :=
  { noRoutes with
    matchRoute _ := some ()
    forwardWithResilience _ req _ :=
      ((forwardWithResilience ⟨2, 1024⟩ req [] (fun _ => busyBackend) (openAndClosed .RoundRobin)).1, ()) }

def busyTelemetry : Telemetry Unit Unit :=
  .ofForwarding ⟨2, 1024⟩ (fun _ => []) (fun _ _ _ _ => busyBackend) (fun _ _ => openAndClosed .RoundRobin)
    fun _ _ => 40

/-- A client connects, and sends a request. -/
def firstRequest : List (Loop.Signal Unit) :=
  [.wait (some [{ fd := 3 }]), .dispatch ⟨0, [], [], [], ()⟩, .accept (.accepted 5 [] 0), .accept .failed,
    .tick 0 [5], .close, .wait (some [{ fd := 5, readable := true }]),
    .dispatch ⟨0, [.data (bytes "GET / HTTP/1.1\r\n\r\n"), .wouldBlock], [.wouldBlock], [], ()⟩]

/-- Two workers have a request each. The first of them has met the open breaker and has retried once. -/
def twoUnderway : List (ℕ × MetricsCall) :=
  [(0, .connectionOpened), (1, .connectionOpened), (0, .incRequests), (0, .incCircuitOpen), (1, .incRequests),
    (0, .incRetries)]

theorem counters_consistent_twoUnderway :
    let m := Metrics.after (twoUnderway.map Prod.snd)
    m.requests = 2 ∧ m.latency.total = 0 ∧ m.retries + m.circuitOpenRejections = 2 ∧
      m.requests ≤ m.latency.total + 2 ∧ m.retries + m.circuitOpenRejections ≤ 3 * m.requests := by
  have hlog : ∀ i < 2, own i twoUnderway <+: Loop.registryCalls busyUpstream busyTelemetry 3 firstRequest := by
    decide +kernel
  obtain ⟨⟨-, hunderway⟩, -, -, -, hattempts⟩ := counters_consistent busyUpstream busyTelemetry 2 (fun _ => 3)
    (fun _ => firstRequest) twoUnderway (by decide) hlog
  exact ⟨by decide, by decide, by decide, hunderway, hattempts⟩

end ApiGateway.Core
