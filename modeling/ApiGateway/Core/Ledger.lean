import ApiGateway.Core.Accounting
import Mathlib.Algebra.BigOperators.Ring.Finset

/-!
# The metrics are right

The counters between two callbacks. What the registry was told agrees with what the workers have done (`Matches`):
requests were handled, responses were queued, connections are open. Each counter is the sum of weights over the
outcomes, so that it can be compared with the logs of the workers (`counters_exact`).

A malformed request is answered with status 400, and is no request for the registry: there may be more responses
than requests.

Reference: `Gateway::Worker` in `src/core/Gateway.cpp`, `include/observability/Metrics.hpp`.
-/

namespace ApiGateway.Core

open Str Http Observability Tally Interleaving

/-! ## Outcomes and effects -/

/-- A request is handled. -/
def Effect.isHandled : Effect → Bool
  | .handled _ => true
  | _ => false

/-- A response in its wire format, and whether it is to be the last one. -/
def Effect.queuedWire : Effect → Option (Bytes × Bool)
  | .queued wire closeAfter => some (wire, closeAfter)
  | _ => none

/-- A response as it is queued. -/
def wireOf (answer : HttpResponse × Bool) : Bytes × Bool := (answer.1.serialize (!answer.2), answer.2)

namespace Reports

variable {σ ρ : Type*} {tel : Telemetry σ ρ} {es : List Effect} {os : List Outcome}

theorem countP_handled (h : Reports tel es os) : es.countP Effect.isHandled = os.countP Outcome.handled := by
  induction h with
  | nothing => rfl
  | malformed => rfl
  | handled req resp closeAfter hstatus hhandled hbounded =>
    simp [List.countP_cons, Effect.isHandled, hhandled]
  | append h h' ih ih' => rw [List.countP_append, List.countP_append, ih, ih']

/-- The responses that were queued are those that were counted. -/
theorem exists_answers (h : Reports tel es os) : ∃ answers : List (HttpResponse × Bool),
    es.filterMap Effect.queuedWire = answers.map wireOf ∧
      os.filterMap Outcome.statusCode = answers.map (·.1.statusCode) := by
  induction h with
  | nothing => exact ⟨[], rfl, rfl⟩
  | malformed => exact ⟨[(badRequest, true)], rfl, rfl⟩
  | handled req resp closeAfter hstatus hhandled hbounded =>
    exact ⟨[(resp, closeAfter)], rfl, by simp [hstatus]⟩
  | append h h' ih ih' =>
    obtain ⟨answers, hwires, hstatuses⟩ := ih
    obtain ⟨answers', hwires', hstatuses'⟩ := ih'
    refine ⟨answers ++ answers', ?_, ?_⟩
    · rw [List.filterMap_append, hwires, hwires', List.map_append]
    · rw [List.filterMap_append, hstatuses, hstatuses', List.map_append]

end Reports

def Outcome.isOpened : Outcome → Bool
  | .opened => true
  | _ => false

def Outcome.isClosed : Outcome → Bool
  | .closed => true
  | _ => false

/-- **The outcomes of a worker are what its log says.** -/
structure Matches {σ ρ : Type*} (tel : Telemetry σ ρ) (log : List Loop.Act) (os : List Outcome) : Prop where
  reports : Reports tel ((Loop.dids log).filter Effect.isService) (os.filter Outcome.answered)
  opened : os.countP Outcome.isOpened = log.count .connectionOpened
  closed : os.countP Outcome.isClosed = log.count .connectionClosed

theorem Reports.served {σ ρ : Type*} {tel : Telemetry σ ρ} {es : List Effect} {os : List Outcome}
    (h : Reports tel es os) :
    ∀ o ∈ os, o.answered = true ∧ o.isOpened = false ∧ o.isClosed = false := by
  induction h with
  | nothing => simp
  | malformed => simp [Outcome.answered, Outcome.statusCode, Outcome.isOpened, Outcome.isClosed]
  | @handled req resp closeAfter o hstatus hhandled hbounded =>
    rw [List.forall_mem_singleton]
    refine ⟨by simp [Outcome.answered, hstatus], ?_⟩
    cases o <;> simp [Outcome.handled, Outcome.isOpened, Outcome.isClosed] at hhandled ⊢
  | append h h' ih ih' => exact List.forall_mem_append.mpr ⟨ih, ih'⟩

section Exact

variable {σ ρ : Type*} (sys : Subsystems σ ρ) (tel : Telemetry σ ρ)

/-- The outcomes that are read off the log. -/
theorem countP_filterMap_outcome (acts : List Loop.Act) :
    (acts.filterMap Loop.Act.outcome).countP Outcome.isOpened = acts.count .connectionOpened ∧
      (acts.filterMap Loop.Act.outcome).countP Outcome.isClosed = acts.count .connectionClosed ∧
      (acts.filterMap Loop.Act.outcome).filter Outcome.answered = [] := by
  induction acts with
  | nil => exact ⟨rfl, rfl, rfl⟩
  | cons a acts ih =>
    obtain ⟨hopened, hclosed, hanswered⟩ := ih
    cases a <;>
      simp [Loop.Act.outcome, List.filterMap_cons, List.countP_cons, hopened, hclosed, hanswered, Outcome.isOpened,
        Outcome.isClosed, Outcome.answered, Outcome.statusCode]

theorem Matches.step {log : List Loop.Act} {os : List Outcome} (h : Matches tel log os) (w : Loop.Worker)
    (s : Loop.Signal σ) : Matches tel (log ++ (w.step sys s).2) (os ++ (w.report sys tel s).2) := by
  have hreports := Loop.reports_step sys tel w s
  obtain ⟨hopened, hclosed, hanswered⟩ := countP_filterMap_outcome (w.step sys s).2
  have hserved := hreports.served
  have hself : (w.served sys tel s).filter Outcome.answered = w.served sys tel s :=
    List.filter_eq_self.mpr fun o ho => (hserved o ho).1
  have hnotOpened : (w.served sys tel s).countP Outcome.isOpened = 0 :=
    List.countP_eq_zero.mpr fun o ho => by simp [(hserved o ho).2.1]
  have hnotClosed : (w.served sys tel s).countP Outcome.isClosed = 0 :=
    List.countP_eq_zero.mpr fun o ho => by simp [(hserved o ho).2.2]
  refine ⟨?_, ?_, ?_⟩
  · rw [Loop.dids_append, List.filter_append, Loop.Worker.report, List.filter_append, List.filter_append, hself,
      hanswered, List.append_nil]
    exact h.reports.append hreports
  · rw [Loop.Worker.report, List.countP_append, List.countP_append, hnotOpened, hopened, h.opened, Nat.zero_add,
      List.count_append]
  · rw [Loop.Worker.report, List.countP_append, List.countP_append, hnotClosed, hclosed, h.closed, Nat.zero_add,
      List.count_append]

theorem matches_run (listenFd : ℤ) (es : List (Loop.Signal σ)) :
    Matches tel (Reactive.run (Loop.Worker.step sys) (Loop.Worker.start listenFd) es).2
      (Loop.outcomes sys tel listenFd es) := by
  show Matches tel _ (Reactive.run (Loop.Worker.report sys tel) (Loop.Worker.start listenFd) es).2
  exact (Reactive.run_related (R := Matches tel) (fun _ _ => rfl) ⟨.nothing, rfl, rfl⟩
    (fun w _ _ s h => h.step sys tel w s) es).2

/-- The requests that were handled. -/
theorem Matches.countP_handled {log : List Loop.Act} {os : List Outcome} (h : Matches tel log os) :
    os.countP Outcome.handled = (Loop.dids log).countP Effect.isHandled := by
  have hcount := h.reports.countP_handled
  rw [List.countP_filter, List.countP_filter] at hcount
  have heffects : ∀ e : Effect, (e.isHandled && e.isService) = e.isHandled := by
    intro e
    cases e <;> rfl
  have houtcomes : ∀ o : Outcome, (o.handled && o.answered) = o.handled := by
    intro o
    cases o <;> rfl
  simpa only [heffects, houtcomes] using hcount.symm

/-- The responses that were queued. -/
theorem Matches.exists_answers {log : List Loop.Act} {os : List Outcome} (h : Matches tel log os) :
    ∃ answers : List (HttpResponse × Bool), (Loop.dids log).filterMap Effect.queuedWire = answers.map wireOf ∧
      os.filterMap Outcome.statusCode = answers.map (·.1.statusCode) := by
  obtain ⟨answers, hwires, hstatuses⟩ := h.reports.exists_answers
  rw [List.filterMap_filter] at hwires hstatuses
  have heffects : ∀ e : Effect, (if e.isService = true then e.queuedWire else none) = e.queuedWire := by
    intro e
    cases e <;> rfl
  have houtcomes : ∀ o : Outcome, (if o.answered = true then o.statusCode else none) = o.statusCode := by
    intro o
    cases o <;> rfl
  simp only [heffects] at hwires
  simp only [houtcomes] at hstatuses
  exact ⟨answers, hwires, hstatuses⟩

end Exact

theorem countP_statusCode (p : ℤ → Bool) (os : List Outcome) :
    os.countP (fun o => o.statusCode.any p) = (os.filterMap Outcome.statusCode).countP p := by
  rw [List.countP_filterMap]
  refine List.countP_congr fun o _ => ?_
  cases o.statusCode <;> rfl

/-! ## Each counter -/

/-- A response of a class. -/
def inClass (k : ℕ) : MetricsCall → ℤ
  | .recordResponse statusCode => if statusCode / 100 = k then 1 else 0
  | _ => 0

/-- A connection is opened or closed. -/
def connectionChange : MetricsCall → ℤ
  | .connectionOpened => 1
  | .connectionClosed => -1
  | _ => 0

theorem length_responsesByClass (calls : List MetricsCall) : (Metrics.after calls).responsesByClass.length = 6 := by
  induction calls using List.reverseRecOn with
  | nil => rfl
  | append_singleton calls c ih =>
    have hafter : Metrics.after (calls ++ [c]) = (Metrics.after calls).apply c := by
      rw [Metrics.after, List.foldl_append]
      rfl
    rw [hafter]
    cases c with
    | recordResponse statusCode =>
      simp only [Metrics.apply, Metrics.recordResponse]
      split
      · rw [List.length_modify, ih]
      · exact ih
    | _ => exact ih

theorem responses_recordResponse {m : Metrics} (h : m.responsesByClass.length = 6) (statusCode : ℤ) {k : ℕ}
    (hk : 1 ≤ k) (hk' : k ≤ 5) :
    ((m.recordResponse statusCode).responses k : ℤ)
      = m.responses k + if statusCode / 100 = k then 1 else 0 := by
  unfold Metrics.recordResponse Metrics.responses
  by_cases hrange : 100 ≤ statusCode ∧ statusCode < 600
  · rw [if_pos hrange]
    dsimp only
    rw [List.getD_eq_getElem?_getD, List.getD_eq_getElem?_getD, List.getElem?_modify,
      List.getElem?_eq_getElem (by omega)]
    by_cases heq : (statusCode / 100).toNat = k
    · have hclass : statusCode / 100 = k := by omega
      simp [hclass]
    · have hclass : ¬ statusCode / 100 = k := by omega
      simp [heq, hclass]
  · rw [if_neg hrange, if_neg (by omega), add_zero]

theorem responses_after (calls : List MetricsCall) {k : ℕ} (hk : 1 ≤ k) (hk' : k ≤ 5) :
    ((Metrics.after calls).responses k : ℤ) = total (inClass k) calls := by
  have hzero : ∀ k ≤ 5, ((({} : Metrics).responses k : ℕ) : ℤ) = 0 := by decide
  refine @after_eq_total (fun m => (m.responses k : ℤ)) (inClass k) (hzero k hk') (fun calls c => ?_) calls
  cases c with
  | recordResponse statusCode =>
    exact responses_recordResponse (length_responsesByClass calls) statusCode hk hk'
  | _ => exact (add_zero _).symm

theorem activeConnections_after (calls : List MetricsCall) :
    (Metrics.after calls).activeConnections = total connectionChange calls := by
  refine after_eq_total rfl (fun calls c => ?_) calls
  cases c with
  | recordResponse statusCode =>
    simp only [Metrics.apply, Metrics.recordResponse, connectionChange]
    split <;> simp
  | connectionOpened => rfl
  | connectionClosed => rfl
  | _ => exact (add_zero _).symm

namespace Outcome

variable (attempts : ℕ) (o : Outcome)

theorem total_requests : total (Weights.weigh { requests := 1 }) (o.calls attempts) = if o.handled then 1 else 0 := by
  cases o with
  | forwarded lookedUp trials statusCode micros =>
    have htrial : total (Weights.weigh { requests := 1 }) (trialCalls attempts 0 trials) = 0 :=
      total_trialCalls_eq_zero rfl rfl 0 trials
    simp only [calls, total_cons, total_append, htrial]
    split <;> split <;> rfl
  | _ => rfl

theorem total_inClass (k : ℕ) :
    total (inClass k) (o.calls attempts) = if o.statusCode.any (· / 100 = (k : ℤ)) then 1 else 0 := by
  cases o with
  | forwarded lookedUp trials statusCode micros =>
    have htrial : total (inClass k) (trialCalls attempts 0 trials) = 0 :=
      total_trialCalls_eq_zero rfl rfl 0 trials
    simp only [calls, total_cons, total_append, htrial, Outcome.statusCode, Option.any_some]
    split <;> split <;> simp [inClass]
  | _ => simp [calls, inClass, Outcome.statusCode]

theorem total_connectionChange :
    total connectionChange (o.calls attempts)
      = (if o.isOpened then 1 else 0) - if o.isClosed then 1 else 0 := by
  cases o with
  | forwarded lookedUp trials statusCode micros =>
    have htrial : total connectionChange (trialCalls attempts 0 trials) = 0 :=
      total_trialCalls_eq_zero rfl rfl 0 trials
    simp only [calls, total_cons, total_append, htrial]
    split <;> split <;> rfl
  | _ => rfl

end Outcome

/-- A counter is the sum over the outcomes of the workers. -/
theorem total_eq_sum_outcomes {σ ρ : Type*} {sys : Subsystems σ ρ} {tel : Telemetry σ ρ} {n : ℕ}
    {listenFd : ℕ → ℤ} {es : ℕ → List (Loop.Signal σ)} {log : List (ℕ × MetricsCall)}
    (hthreads : ∀ x ∈ log, x.1 < n)
    (hlog : ∀ i < n, own i log = Loop.registryCalls sys tel (listenFd i) (es i)) (f : MetricsCall → ℤ) :
    total f (log.map Prod.snd) = ∑ i ∈ Finset.range n,
      total (fun o => total f (o.calls tel.attempts)) (Loop.outcomes sys tel (listenFd i) (es i)) := by
  rw [total_eq_sum fun x hx => Finset.mem_range.mpr (hthreads x hx)]
  refine Finset.sum_congr rfl fun i hi => ?_
  rw [hlog i (Finset.mem_range.mp hi), Loop.registryCalls, total_flatMap]

/-- **The counters are exact between callbacks.** However the calls of the workers are interleaved, when none of
them is in the middle of a callback: the requests are those that were handled, each with a latency; the active
connections are those in the tables of the workers, and there are none when all workers have returned; and the
responses of a class are the responses with such a status whose wire formats were queued. -/
theorem counters_exact {σ ρ : Type*} (sys : Subsystems σ ρ) (tel : Telemetry σ ρ) (n : ℕ)
    (listenFd : ℕ → ℤ) (es : ℕ → List (Loop.Signal σ)) (log : List (ℕ × MetricsCall))
    (hthreads : ∀ x ∈ log, x.1 < n)
    (hlog : ∀ i < n, own i log = Loop.registryCalls sys tel (listenFd i) (es i))
    (hes : ∀ i < n, Reactive.Obeys (Loop.Worker.step sys) Loop.Permitted (Loop.Worker.start (listenFd i)) [] (es i)) :
    let m := Metrics.after (log.map Prod.snd)
    let worker := fun i => Reactive.run (Loop.Worker.step sys) (Loop.Worker.start (listenFd i)) (es i)
    m.requests = ∑ i ∈ Finset.range n, (Loop.dids (worker i).2).countP Effect.isHandled ∧
    m.latency.total = m.requests ∧
    m.activeConnections = ∑ i ∈ Finset.range n, ((worker i).1.conns.keys.card : ℤ) ∧
    ((∀ i < n, (worker i).1.phase = .returned) → m.activeConnections = 0) ∧
    ∃ answers : ℕ → List (HttpResponse × Bool),
      (∀ i, (Loop.dids (worker i).2).filterMap Effect.queuedWire = (answers i).map wireOf) ∧
      ∀ k, 1 ≤ k → k ≤ 5 → m.responses k
        = ∑ i ∈ Finset.range n, (answers i).countP fun a => a.1.statusCode / 100 = (k : ℤ) := by
  intro m worker
  have hmatches : ∀ i, Matches tel (worker i).2 (Loop.outcomes sys tel (listenFd i) (es i)) :=
    fun i => matches_run sys tel (listenFd i) (es i)
  have hconsistent : ∀ i < n, Loop.Consistent (worker i).1 (worker i).2 := fun i hi =>
    (hes i hi).invariant (fun _ _ _ h hs => h.step sys hs) (Loop.consistent_start (listenFd i))
  have hsum := total_eq_sum_outcomes hthreads hlog
  have hactive : m.activeConnections = ∑ i ∈ Finset.range n, ((worker i).1.conns.keys.card : ℤ) := by
    rw [activeConnections_after, hsum]
    refine Finset.sum_congr rfl fun i hi => ?_
    have hcounts := (hconsistent i (Finset.mem_range.mp hi)).agrees.counts
    rw [total_congr fun o _ => o.total_connectionChange tel.attempts, total_sub, total_indicator, total_indicator,
      (hmatches i).opened, (hmatches i).closed]
    omega
  choose answers hwires hstatuses using fun i => (hmatches i).exists_answers
  refine ⟨?_, ?_, hactive, fun hreturned => ?_, answers, hwires, fun k hk hk' => ?_⟩
  · have hrequests : Weights.value { requests := 1 } m = _ := Weights.value_after _ (log.map Prod.snd)
    simp only [Weights.value, zero_mul, add_zero, one_mul] at hrequests
    zify
    rw [hrequests, hsum]
    refine Finset.sum_congr rfl fun i _ => ?_
    rw [total_congr fun o _ => o.total_requests tel.attempts, total_indicator, (hmatches i).countP_handled]
  · have hunderway : Weights.value { requests := 1, latency := -1 } m = _ :=
      Weights.value_after _ (log.map Prod.snd)
    have hnone : ∀ i, total (fun o => total (Weights.weigh { requests := 1, latency := -1 }) (o.calls tel.attempts))
        (Loop.outcomes sys tel (listenFd i) (es i)) = 0 := fun i =>
      total_eq_zero fun o _ => Weights.underway_whole tel.attempts o
    rw [hsum, Finset.sum_eq_zero fun i _ => hnone i] at hunderway
    simp only [Weights.value, zero_mul, add_zero, one_mul, neg_mul] at hunderway
    omega
  · rw [hactive]
    refine Finset.sum_eq_zero fun i hi => ?_
    have hleft := (hconsistent i (Finset.mem_range.mp hi)).left (hreturned i (Finset.mem_range.mp hi))
    have hnone : (worker i).1.conns.keys = ∅ := by
      ext fd
      simp [Finmap.mem_keys, hleft fd]
    rw [hnone, Finset.card_empty, Nat.cast_zero]
  · zify
    rw [responses_after _ hk hk', hsum]
    refine Finset.sum_congr rfl fun i _ => ?_
    rw [total_congr fun o _ => o.total_inClass tel.attempts k, total_indicator, countP_statusCode, hstatuses,
      List.countP_map]
    rfl

/-- The same two workers, when both have answered. -/
def twoAnswered : List (ℕ × MetricsCall) :=
  twoUnderway ++
    [(1, .incCircuitOpen), (0, .incCircuitOpen), (0, .incErrors), (1, .incRetries), (0, .recordLatencyMicros 40),
      (0, .recordResponse 503), (1, .incCircuitOpen), (1, .incErrors), (1, .recordLatencyMicros 40),
      (1, .recordResponse 503)]

theorem counters_exact_twoAnswered :
    let m := Metrics.after (twoAnswered.map Prod.snd)
    m.requests = 2 ∧ m.latency.total = m.requests ∧ m.responses 5 = 2 ∧ m.activeConnections = 2 := by
  have hlog : ∀ i < 2, own i twoAnswered = Loop.registryCalls busyUpstream busyTelemetry 3 firstRequest := by
    decide +kernel
  have hconns : ∀ (c : Loop.Conn) (fd : ℤ), fd ∈ [5] ↔ fd ∈ Finmap.insert 5 c (∅ : Finmap fun _ : ℤ => Loop.Conn) := by
    intro c fd
    rw [Finmap.mem_insert, List.mem_singleton, or_iff_left Finmap.notMem_empty]
  have hes : Reactive.Obeys (Loop.Worker.step busyUpstream) Loop.Permitted (Loop.Worker.start 3) [] firstRequest :=
    ⟨⟨by decide, by decide⟩, trivial, rfl, trivial, ⟨by decide, hconns _⟩, trivial, ⟨by decide, by decide⟩, trivial,
      trivial⟩
  obtain ⟨-, hlatency, -⟩ := counters_exact busyUpstream busyTelemetry 2 (fun _ => 3) (fun _ => firstRequest)
    twoAnswered (by decide) hlog fun _ _ => hes
  exact ⟨by decide, hlatency, by decide, by decide⟩

end ApiGateway.Core
