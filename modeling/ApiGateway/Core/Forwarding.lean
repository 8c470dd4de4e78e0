import ApiGateway.Core.BackendRequest
import ApiGateway.Core.Exchange
import ApiGateway.Network.ConnectionPool
import ApiGateway.Routing.LoadBalancer
import Mathlib.Data.Nat.Count

/-!
# Forwarding with retries

`forwardWithResilience`: a bounded number of attempts, each of which picks a backend, asks its circuit
breaker, and exchanges one request and one response with it. What the surroundings do in an attempt is
an argument (`Surroundings`), and what happens in it is logged (`Trial`).

The strategies do not look at the breakers. A refused attempt leaves behind a balancer that picks as
before (`Alike`), so that a call gets past the breakers exactly if one of the picks in a row meets a
breaker that admits it (`loop_reaches_iff`). The picks in a row are one and the same backend with least
connections, and the healthy draws one after the other with round robin. `exchange_reached_iff` puts
this together.

Reference: `Gateway::forwardWithResilience` in `src/core/Gateway.cpp`, `include/resilience/RetryPolicy.hpp`.
-/

namespace ApiGateway.Core

open Str Http Routing Resilience Network

/-! ## The model -/

/-- What the surroundings do in one attempt. -/
structure Surroundings where
  /-- The clock reading of `allowRequest`. -/
  now : ℤ
  /-- What `dialNew` returns, if it is called. -/
  dialed : ℤ := -1
  sends : List SendResult := []
  reads : List Bytes := []
  /-- The clock reading of `onFailure`. -/
  failedAt : ℤ := now

/-- What the attempts of a call share. -/
structure ForwardConfig where
  maxRetries : ℤ
  maxResponseBodyBytes : ℕ

/-- The state behind a route. -/
structure Upstream where
  lb : LoadBalancer
  pool : ConnectionPool
  /-- The descriptors that have been closed. -/
  closed : List ℤ := []

/-- What happened in an attempt that got a backend. -/
inductive Trial where
  /-- The backend's breaker has refused the attempt. -/
  | refused (backend : ℕ)
  /-- The attempt got past the breaker to `acquire` and, with a connection, to `sendAndReceive`. There is no outcome if
  one of them has failed. -/
  | exchanged (backend : ℕ) (outcome : Option HttpResponse)
deriving DecidableEq, Repr

/-- The attempt got past the breaker. -/
def Trial.isExchange : Trial → Bool
  | .refused _ => false
  | .exchanged _ _ => true

/-- `RetryPolicy::isRetryable`. -/
def isRetryable (httpStatusOrErrno : ℤ) : Bool :=
  httpStatusOrErrno < 0 || httpStatusOrErrno == 502 || httpStatusOrErrno == 503
    || httpStatusOrErrno == 504

def noHealthyBackends : HttpResponse :=
  .make 503 (bytes "Service Unavailable") (bytes "no healthy backends")

def backendRequestFailed : HttpResponse :=
  .make 502 (bytes "Bad Gateway") (bytes "backend request failed")

def allRetriesExhausted : HttpResponse :=
  .make 503 (bytes "Service Unavailable") (bytes "all retries exhausted")

namespace Upstream

/-- `fetch_add` on a backend's connections. -/
def addConnections (u : Upstream) (i : ℕ) (n : ℤ) : Upstream :=
  { u with lb := u.lb.update i fun b => { b with activeConnections := b.activeConnections + n } }

/-- Replace a backend's breaker. -/
def setBreaker (u : Upstream) (i : ℕ) (cb : CircuitBreaker) : Upstream :=
  { u with lb := u.lb.update i fun b => { b with circuitBreaker := cb } }

/-- Report the outcome of an exchange to a backend's breaker. -/
def report (u : Upstream) (i : ℕ) (ok : Bool) (now : ℤ) : Upstream :=
  { u with lb := u.lb.update i fun b => { b with circuitBreaker := b.circuitBreaker.report ok now } }

/-- An attempt from the breaker's admission to its report, with backend `b` at index `i`. -/
def exchange (cfg : ForwardConfig) (req : HttpRequest) (order : List (Σ _ : Bytes, Bytes))
    (s : Surroundings) (i : ℕ) (b : Backend) (u : Upstream) : Option HttpResponse × Upstream :=
  let u := u.addConnections i 1
  let (fd, pool) := u.pool.acquire b.host b.port s.dialed
  let result :=
    if 0 ≤ fd then
      sendAndReceive (buildBackendRequest req order b.host) cfg.maxResponseBodyBytes s.sends s.reads
    else none
  let u := { u with pool }.addConnections i (-1)
  match result with
  | some (resp, reusable) =>
    let u := u.report i true s.failedAt
    if reusable then
      let (pool, closed) := u.pool.release b.host b.port fd
      (some resp, { u with pool, closed := closed ++ u.closed })
    else (some resp, { u with closed := ConnectionPool.discard fd ++ u.closed })
  | none =>
    let u := if 0 ≤ fd then { u with closed := ConnectionPool.discard fd ++ u.closed } else u
    (none, u.report i false s.failedAt)

end Upstream

/-- The response with which an exchange ends the call; `none` means another attempt. -/
def answer (last : Bool) : Option HttpResponse → Option HttpResponse
  | some resp =>
    if resp.statusCode < 500 then some resp
    else if last then some resp
    else if !isRetryable resp.statusCode then some resp
    else none
  | none => if last then some backendRequestFailed else none

/-- The `for` loop, over the surroundings of the attempts that are left. -/
def forwardLoop (cfg : ForwardConfig) (req : HttpRequest) (order : List (Σ _ : Bytes, Bytes)) :
    List Surroundings → Upstream → HttpResponse × Upstream × List Trial
  | [], u => (allRetriesExhausted, u, [])
  | s :: rest, u =>
    match u.lb.pickBackend with
    | (none, lb) => (noHealthyBackends, { u with lb }, [])
    | (some (i, b), lb) =>
      let (allowed, cb) := b.circuitBreaker.allowRequest s.now
      let u := { u with lb }.setBreaker i cb
      if allowed then
        let (outcome, u) := u.exchange cfg req order s i b
        match answer (rest = []) outcome with
        | some resp => (resp, u, [.exchanged i outcome])
        | none =>
          let (resp, u, log) := forwardLoop cfg req order rest u
          (resp, u, .exchanged i outcome :: log)
      else
        let (resp, u, log) := forwardLoop cfg req order rest u
        (resp, u, .refused i :: log)

/-- The state after a pick of backend `b` at index `i` and its breaker's decision. -/
def Upstream.asked (u : Upstream) (i : ℕ) (b : Backend) (now : ℤ) : Upstream :=
  { u with lb := u.lb.pickBackend.2 }.setBreaker i (b.circuitBreaker.allowRequest now).2

/-- Put a trial before those of a call. -/
def logged (t : Trial) (call : HttpResponse × Upstream × List Trial) :
    HttpResponse × Upstream × List Trial :=
  (call.1, call.2.1, t :: call.2.2)

/-- **One attempt, case by case**: no backend, a refusal, an exchange that ends the call, or an exchange
that is retried. -/
theorem forwardLoop_cons (cfg : ForwardConfig) (req : HttpRequest)
    (order : List (Σ _ : Bytes, Bytes)) (s : Surroundings) (rest : List Surroundings) (u : Upstream) :
    (u.lb.pickBackend.1 = none ∧ forwardLoop cfg req order (s :: rest) u
      = (noHealthyBackends, { u with lb := u.lb.pickBackend.2 }, [])) ∨
    ∃ i b, u.lb.pickBackend.1 = some (i, b) ∧
      ((¬ b.circuitBreaker.Admits s.now ∧ forwardLoop cfg req order (s :: rest) u
          = logged (.refused i) (forwardLoop cfg req order rest (u.asked i b s.now))) ∨
        (b.circuitBreaker.Admits s.now ∧ ∃ outcome u',
          (u.asked i b s.now).exchange cfg req order s i b = (outcome, u') ∧
          ((∃ resp, answer (rest = []) outcome = some resp ∧
              forwardLoop cfg req order (s :: rest) u = (resp, u', [.exchanged i outcome])) ∨
            (answer (rest = []) outcome = none ∧ forwardLoop cfg req order (s :: rest) u
              = logged (.exchanged i outcome) (forwardLoop cfg req order rest u'))))) := by
  rcases hpick : u.lb.pickBackend with ⟨_ | ⟨i, b⟩, lb⟩
  · refine .inl ⟨rfl, ?_⟩
    rw [forwardLoop, hpick]
  · refine .inr ⟨i, b, rfl, ?_⟩
    have hasked : u.asked i b s.now
        = { u with lb }.setBreaker i (b.circuitBreaker.allowRequest s.now).2 := by
      rw [Upstream.asked, hpick]
    rw [hasked, forwardLoop, hpick, ← b.circuitBreaker.allowRequest_fst_iff]
    by_cases hallowed : (b.circuitBreaker.allowRequest s.now).1 = true
    · rcases hexchange : Upstream.exchange cfg req order s i b
        ({ u with lb }.setBreaker i (b.circuitBreaker.allowRequest s.now).2) with ⟨outcome, u'⟩
      refine .inr ⟨hallowed, outcome, u', hexchange, ?_⟩
      simp only [hallowed, if_true, hexchange]
      cases hanswer : answer (rest = []) outcome with
      | some resp => exact .inl ⟨resp, rfl, rfl⟩
      | none => exact .inr ⟨rfl, rfl⟩
    · refine .inl ⟨hallowed, ?_⟩
      simp only [hallowed, if_false, Bool.false_eq_true]
      rfl

/-- The number of attempts. -/
def ForwardConfig.attempts (cfg : ForwardConfig) : ℕ := (cfg.maxRetries + 1).toNat

def forwardWithResilience (cfg : ForwardConfig) (req : HttpRequest)
    (order : List (Σ _ : Bytes, Bytes)) (env : ℕ → Surroundings) (u : Upstream) :
    HttpResponse × Upstream × List Trial :=
  forwardLoop cfg req order ((List.range cfg.attempts).map env) u

/-- A call that reaches an exchange. -/
def Reaches (call : HttpResponse × Upstream × List Trial) : Prop :=
  ∃ t ∈ call.2.2, t.isExchange = true

instance (call : HttpResponse × Upstream × List Trial) : Decidable (Reaches call) :=
  inferInstanceAs (Decidable (∃ t ∈ call.2.2, t.isExchange = true))

theorem reaches_logged (t : Trial) (call : HttpResponse × Upstream × List Trial) :
    Reaches (logged t call) ↔ t.isExchange = true ∨ Reaches call := by
  simp [Reaches, logged]

/-! ## What a pick sees -/

/-- What matters of a backend before the first exchange. -/
def outline (b : Backend) : Bool × ℤ × (ℤ → Prop) :=
  (b.healthy, b.activeConnections, b.circuitBreaker.Admits)

/-- Balancers that differ in nothing that matters before the first exchange. -/
structure Alike (lb lb' : LoadBalancer) : Prop where
  strategy : lb.strategy = lb'.strategy
  rrCounter : lb.rrCounter = lb'.rrCounter
  outlines : lb.backends.map outline = lb'.backends.map outline

theorem leastLoaded_iff_outline (bs : List Backend) (i : ℕ) :
    LoadBalancer.LeastLoaded bs i ↔ ∃ o, (bs.map outline)[i]? = some o ∧ o.1 = true ∧
      ∀ j o', (bs.map outline)[j]? = some o' → o'.1 = true →
        o.2.1 ≤ o'.2.1 ∧ (j < i → o.2.1 < o'.2.1) := by
  simp [LoadBalancer.LeastLoaded, outline]

namespace Alike

variable {lb lb' : LoadBalancer}

theorem symm (h : Alike lb lb') : Alike lb' lb :=
  ⟨h.strategy.symm, h.rrCounter.symm, h.outlines.symm⟩

theorem size (h : Alike lb lb') : lb.size = lb'.size := by
  have := congrArg List.length h.outlines
  rwa [List.length_map, List.length_map] at this

theorem advance (h : Alike lb lb') (k : ℕ) : Alike (lb.advance k) (lb'.advance k) :=
  ⟨h.strategy, congrArg (· + UInt64.ofNat k) h.rrCounter, h.outlines⟩

theorem isHealthy (h : Alike lb lb') (i : ℕ) : lb.isHealthy i = lb'.isHealthy i := by
  have hout : ∀ lb : LoadBalancer, lb.isHealthy i = (lb.backends.map outline)[i]?.any (·.1) := by
    intro lb
    rw [LoadBalancer.isHealthy, List.getElem?_map, Option.any_map]
    rfl
  rw [hout, h.outlines, ← hout]

theorem pickRoundRobinLoop (h : Alike lb lb') (rounds : ℕ) :
    (LoadBalancer.pickRoundRobinLoop rounds lb).1 = (LoadBalancer.pickRoundRobinLoop rounds lb').1 ∧
      Alike (LoadBalancer.pickRoundRobinLoop rounds lb).2
        (LoadBalancer.pickRoundRobinLoop rounds lb').2 := by
  induction rounds generalizing lb lb' with
  | zero => exact ⟨rfl, h⟩
  | succ rounds ih =>
    have hidx : lb.nextIndex = lb'.nextIndex := by
      rw [LoadBalancer.nextIndex, h.rrCounter, h.size, ← LoadBalancer.nextIndex]
    rw [LoadBalancer.pickRoundRobinLoop_succ, LoadBalancer.pickRoundRobinLoop_succ, ← hidx,
      ← h.isHealthy]
    split
    · exact ⟨rfl, h.advance 1⟩
    · exact ih (h.advance 1)

theorem pick (h : Alike lb lb') : lb.pick.1 = lb'.pick.1 ∧ Alike lb.pick.2 lb'.pick.2 := by
  cases hs : lb.strategy with
  | RoundRobin =>
    rw [LoadBalancer.pick_of_roundRobin hs, LoadBalancer.pick_of_roundRobin (h.strategy ▸ hs),
      LoadBalancer.pickRoundRobin, LoadBalancer.pickRoundRobin, ← h.size]
    exact h.pickRoundRobinLoop lb.size
  | LeastConnections =>
    rw [LoadBalancer.pick_of_leastConnections hs,
      LoadBalancer.pick_of_leastConnections (h.strategy ▸ hs)]
    refine ⟨Option.ext fun i => ?_, h⟩
    simp only [LoadBalancer.pickLeastConnections_eq_some_iff, leastLoaded_iff_outline, h.outlines]

/-- The backends at one index agree in what matters. -/
theorem outline_eq (h : Alike lb lb') {i : ℕ} {b b' : Backend} (hb : lb.backends[i]? = some b)
    (hb' : lb'.backends[i]? = some b') : outline b = outline b' := by
  have := congrArg (·[i]?) h.outlines
  simpa only [List.getElem?_map, hb, hb', Option.map_some, Option.some.injEq] using this

/-- A refusal leaves behind a balancer like the one before. -/
theorem update_of_refused {i : ℕ} {b : Backend} (hb : lb.backends[i]? = some b) {now : ℤ}
    (hrefused : ¬ b.circuitBreaker.Admits now) :
    Alike (lb.update i fun b' => { b' with circuitBreaker := (b.circuitBreaker.allowRequest now).2 })
      lb := by
  refine ⟨rfl, rfl, List.ext_getElem? fun j => ?_⟩
  simp only [LoadBalancer.update, List.getElem?_map, List.getElem?_modify]
  by_cases hij : i = j
  · subst hij
    have hadmits : (b.circuitBreaker.allowRequest now).2.Admits = b.circuitBreaker.Admits := by
      funext later
      exact propext (CircuitBreaker.admits_of_refused hrefused later)
    simp only [hb, if_true, Option.map_eq_map, Option.map_some, outline, hadmits]
  · simp [hij]

end Alike

/-! ## Picks in a row -/

/-- One of the picks in a row, at these clock readings, meets a breaker that admits it. -/
def Meets : LoadBalancer → List ℤ → Prop
  | _, [] => False
  | lb, now :: later =>
    ∃ i b, lb.pickBackend.1 = some (i, b) ∧
      (b.circuitBreaker.Admits now ∨ Meets lb.pickBackend.2 later)

theorem Alike.meets {lb lb' : LoadBalancer} (h : Alike lb lb') {readings : List ℤ}
    (hmeets : Meets lb readings) : Meets lb' readings := by
  induction readings generalizing lb lb' with
  | nil => exact hmeets
  | cons now later ih =>
    obtain ⟨i, b, hpick, hcase⟩ := hmeets
    obtain ⟨hi, hb⟩ := (lb.pickBackend_fst_eq_some_iff i b).mp hpick
    have hlt : i < lb'.size := h.size ▸ (List.getElem?_eq_some_iff.mp hb).1
    have hb' := List.getElem?_eq_getElem hlt
    have hpick' := (lb'.pickBackend_fst_eq_some_iff i _).mpr ⟨h.pick.1 ▸ hi, hb'⟩
    refine ⟨i, _, hpick', hcase.imp ?_ (ih h.pick.2)⟩
    have hadmits := congrArg (·.2.2 now) (h.outline_eq hb hb')
    exact hadmits.mp

/-- **The loop, before its first exchange.** It gets past a breaker if and only if one of its picks does,
whatever the surroundings do. -/
theorem loop_reaches_iff (cfg : ForwardConfig) (req : HttpRequest)
    (order : List (Σ _ : Bytes, Bytes)) (ss : List Surroundings) (u : Upstream) :
    Reaches (forwardLoop cfg req order ss u) ↔ Meets u.lb (ss.map Surroundings.now) := by
  induction ss generalizing u with
  | nil => simp [Reaches, forwardLoop, Meets]
  | cons s rest ih =>
    rw [List.map_cons, Meets]
    rcases forwardLoop_cons cfg req order s rest u with ⟨hnone, heq⟩ | ⟨i, b, hpick, hcase⟩
    · simp [heq, hnone, Reaches]
    · simp only [hpick, Option.some.injEq, Prod.mk.injEq, ↓existsAndEq, true_and]
      rcases hcase with ⟨hrefused, heq⟩ | ⟨hadm, outcome, u', -, hcall⟩
      · -- the breaker's state after a refusal does not matter to the picks that follow
        have hb : u.lb.pickBackend.2.backends[i]? = some b := by
          obtain ⟨k, hk⟩ := u.lb.exists_pick_snd_eq_advance
          rw [show u.lb.pickBackend.2 = u.lb.advance k from hk]
          exact ((u.lb.pickBackend_fst_eq_some_iff i b).mp hpick).2
        have halike := Alike.update_of_refused hb hrefused
        simp only [heq, reaches_logged, Trial.isExchange, Bool.false_eq_true, hrefused, false_or]
        exact (ih _).trans ⟨halike.meets, halike.symm.meets⟩
      · simp only [hadm, true_or, iff_true]
        rcases hcall with ⟨resp, -, heq⟩ | ⟨-, heq⟩
        · rw [heq]
          exact ⟨_, List.mem_singleton_self _, rfl⟩
        · rw [heq, reaches_logged]
          exact .inl rfl

/-- Without an exchange the answer is one of the two that `forwardWithResilience` makes up. -/
theorem loop_answer_of_not_reaches {cfg : ForwardConfig} {req : HttpRequest}
    {order : List (Σ _ : Bytes, Bytes)} {ss : List Surroundings} {u : Upstream}
    (h : ¬ Reaches (forwardLoop cfg req order ss u)) :
    (forwardLoop cfg req order ss u).1 = noHealthyBackends ∨
      (forwardLoop cfg req order ss u).1 = allRetriesExhausted := by
  induction ss generalizing u with
  | nil => exact .inr rfl
  | cons s rest ih =>
    rcases forwardLoop_cons cfg req order s rest u with ⟨-, heq⟩ | ⟨i, b, -, hcase⟩
    · exact .inl (congrArg Prod.fst heq)
    · rcases hcase with ⟨-, heq⟩ | ⟨-, outcome, u', -, ⟨resp, -, heq⟩ | ⟨-, heq⟩⟩
      · rw [heq, reaches_logged, not_or] at h
        rw [heq]
        exact ih h.2
      · rw [heq] at h
        exact (h ⟨_, List.mem_singleton_self _, rfl⟩).elim
      · rw [heq, reaches_logged] at h
        exact (h (.inl rfl)).elim

/-- With least connections it is one backend that is picked again and again. -/
theorem meets_leastConnections_iff {lb : LoadBalancer} (h : lb.strategy = .LeastConnections)
    (readings : List ℤ) :
    Meets lb readings ↔ ∃ i b, LoadBalancer.LeastLoaded lb.backends i ∧ lb.backends[i]? = some b ∧
      ∃ now ∈ readings, b.circuitBreaker.Admits now := by
  have hpick := LoadBalancer.pick_of_leastConnections h
  have hfst : ∀ i b, lb.pickBackend.1 = some (i, b) ↔
      LoadBalancer.LeastLoaded lb.backends i ∧ lb.backends[i]? = some b := by
    intro i b
    rw [lb.pickBackend_fst_eq_some_iff, hpick, lb.pickLeastConnections_eq_some_iff]
  have hsnd : lb.pickBackend.2 = lb := congrArg Prod.snd hpick
  induction readings with
  | nil => simp [Meets]
  | cons now later ih =>
    simp only [Meets, hsnd, ih]
    constructor
    · rintro ⟨i, b, hib, hnow | ⟨j, c, hj, hc, now', hmem, hadm⟩⟩
      · obtain ⟨hi, hb⟩ := (hfst i b).mp hib
        exact ⟨i, b, hi, hb, now, List.mem_cons_self, hnow⟩
      · exact ⟨j, c, hj, hc, now', List.mem_cons_of_mem _ hmem, hadm⟩
    · rintro ⟨i, b, hi, hb, now', hmem, hadm⟩
      refine ⟨i, b, (hfst i b).mpr ⟨hi, hb⟩, ?_⟩
      rcases List.mem_cons.mp hmem with rfl | hmem
      · exact .inl hadm
      · exact .inr ⟨i, b, hi, hb, now', hmem, hadm⟩

/-- The number of healthy backends among the next `k` draws: the number of the attempt that draw `k`
belongs to. -/
def healthyDraws (lb : LoadBalancer) (k : ℕ) : ℕ :=
  Nat.count (fun j => lb.isHealthy (lb.draw j) = true) k

/-- Draw `k` is made: no pick before it has given up after a whole round of unhealthy draws. -/
def Drawn (lb : LoadBalancer) (k : ℕ) : Prop :=
  ∀ j, j + lb.size ≤ k → ∃ l < lb.size, lb.isHealthy (lb.draw (j + l)) = true

theorem healthyDraws_eq_zero {lb : LoadBalancer} {k : ℕ}
    (hbefore : ∀ j < k, lb.isHealthy (lb.draw j) = false) : healthyDraws lb k = 0 := by
  rw [healthyDraws, Nat.count_iff_forall_not]
  intro j hj
  simp [hbefore j hj]

/-- Draws after the first healthy one are those of the balancer that the pick leaves behind. -/
theorem healthyDraws_advance {lb : LoadBalancer} {k : ℕ}
    (hbefore : ∀ j < k, lb.isHealthy (lb.draw j) = false)
    (hk : lb.isHealthy (lb.draw k) = true) (m : ℕ) :
    healthyDraws lb (k + 1 + m) = healthyDraws (lb.advance (k + 1)) m + 1 := by
  have hzero := healthyDraws_eq_zero hbefore
  unfold healthyDraws at hzero ⊢
  rw [Nat.count_add, Nat.count_succ, hzero, if_pos hk, Nat.add_comm]
  simp only [LoadBalancer.draw_advance, LoadBalancer.isHealthy_advance]

theorem drawn_advance_iff {lb : LoadBalancer} {k : ℕ} (hlt : k < lb.size)
    (hk : lb.isHealthy (lb.draw k) = true) (m : ℕ) :
    Drawn lb (k + 1 + m) ↔ Drawn (lb.advance (k + 1)) m := by
  have hsize : (lb.advance (k + 1)).size = lb.size := rfl
  unfold Drawn
  simp only [hsize, LoadBalancer.draw_advance, LoadBalancer.isHealthy_advance]
  constructor
  · intro h j hj
    obtain ⟨l, hl, hhealthy⟩ := h (k + 1 + j) (by omega)
    exact ⟨l, hl, by rwa [← Nat.add_assoc]⟩
  · intro h j hj
    by_cases hjk : j ≤ k
    · exact ⟨k - j, by omega, by rwa [Nat.add_sub_cancel' hjk]⟩
    · obtain ⟨l, hl, hhealthy⟩ := h (j - (k + 1)) (by omega)
      refine ⟨l, hl, ?_⟩
      rwa [← Nat.add_assoc, Nat.add_sub_cancel' (by omega)] at hhealthy

/-- One of the draws finds a healthy backend that admits the attempt it belongs to. -/
def DrawAdmits (lb : LoadBalancer) (readings : List ℤ) : Prop :=
  ∃ k b now, lb.backends[lb.draw k]? = some b ∧ b.healthy = true ∧ Drawn lb k ∧
    readings[healthyDraws lb k]? = some now ∧ b.circuitBreaker.Admits now

/-- The first attempt has the first healthy draw, and the others have the draws after it. -/
theorem drawAdmits_cons_iff {lb : LoadBalancer} {k : ℕ} (hlt : k < lb.size)
    (hbefore : ∀ j < k, lb.isHealthy (lb.draw j) = false) {b : Backend}
    (hb : lb.backends[lb.draw k]? = some b) (hhealthy : b.healthy = true) (now : ℤ)
    (later : List ℤ) :
    DrawAdmits lb (now :: later) ↔
      b.circuitBreaker.Admits now ∨ DrawAdmits (lb.advance (k + 1)) later := by
  have hk := (lb.isHealthy_iff _).mpr ⟨b, hb, hhealthy⟩
  constructor
  · rintro ⟨m, c, now', hc, hch, hdrawn, hnow', hadm⟩
    have hmhealthy := (lb.isHealthy_iff _).mpr ⟨c, hc, hch⟩
    rcases Nat.lt_trichotomy m k with hmk | rfl | hmk
    · rw [hbefore m hmk] at hmhealthy
      simp at hmhealthy
    · obtain rfl : b = c := by simpa [hb] using hc
      rw [healthyDraws_eq_zero hbefore] at hnow'
      obtain rfl : now = now' := by simpa using hnow'
      exact .inl hadm
    · obtain ⟨m, rfl⟩ := Nat.exists_eq_add_of_lt hmk
      rw [show k + m + 1 = k + 1 + m by omega] at hc hdrawn hnow'
      rw [healthyDraws_advance hbefore hk, List.getElem?_cons_succ] at hnow'
      rw [← LoadBalancer.draw_advance] at hc
      exact .inr ⟨m, c, now', hc, hch, (drawn_advance_iff hlt hk m).mp hdrawn, hnow', hadm⟩
  · rintro (hadm | ⟨m, c, now', hc, hch, hdrawn, hnow', hadm⟩)
    · refine ⟨k, b, now, hb, hhealthy, fun j hj => by omega, ?_, hadm⟩
      rw [healthyDraws_eq_zero hbefore]
      rfl
    · refine ⟨k + 1 + m, c, now', ?_, hch, (drawn_advance_iff hlt hk m).mpr hdrawn, ?_, hadm⟩
      · rw [← LoadBalancer.draw_advance]
        exact hc
      · rw [healthyDraws_advance hbefore hk, List.getElem?_cons_succ]
        exact hnow'

/-- After a whole round of unhealthy draws no draw is made. -/
theorem not_drawAdmits {lb : LoadBalancer}
    (hnone : ∀ j < lb.size, lb.isHealthy (lb.draw j) = false) (readings : List ℤ) :
    ¬ DrawAdmits lb readings := by
  rintro ⟨m, c, now', hc, hch, hdrawn, -⟩
  have hmhealthy := (lb.isHealthy_iff _).mpr ⟨c, hc, hch⟩
  have hm : lb.size ≤ m := by
    by_contra hlt
    simp [hnone m (by omega)] at hmhealthy
  obtain ⟨l, hl, hhealthy⟩ := hdrawn 0 (by omega)
  simp [hnone l hl] at hhealthy

/-- With round robin the picks in a row are the healthy draws one after the other. -/
theorem meets_roundRobin_iff {lb : LoadBalancer} (h : lb.strategy = .RoundRobin)
    (readings : List ℤ) : Meets lb readings ↔ DrawAdmits lb readings := by
  induction readings generalizing lb with
  | nil => simp [Meets, DrawAdmits]
  | cons now later ih =>
    have hpick := LoadBalancer.pick_of_roundRobin h
    rw [LoadBalancer.pickRoundRobin] at hpick
    rcases lb.pickRoundRobinLoop_spec lb.size with ⟨k, hlt, hk, hbefore, heq⟩ | ⟨hnone, heq⟩
    · rw [heq] at hpick
      obtain ⟨b, hb, hhealthy⟩ := (lb.isHealthy_iff _).mp hk
      have hfst := (lb.pickBackend_fst_eq_some_iff (lb.draw k) b).mpr ⟨congrArg Prod.fst hpick, hb⟩
      have hsnd : lb.pickBackend.2 = lb.advance (k + 1) := congrArg Prod.snd hpick
      rw [drawAdmits_cons_iff hlt hbefore hb hhealthy, ← @ih (lb.advance (k + 1)) h]
      simp only [Meets, hfst, hsnd, Option.some.injEq, Prod.mk.injEq, ↓existsAndEq, true_and]
    · rw [heq] at hpick
      refine iff_of_false ?_ (not_drawAdmits hnone _)
      rintro ⟨i, b, hfst, -⟩
      have := ((lb.pickBackend_fst_eq_some_iff i b).mp hfst).1
      simp [hpick] at this

/-! ## Reaching a backend -/

/-- Where a call of `forwardWithResilience` gets past a breaker: with least connections the first of the
least loaded healthy backends admits it in one of the attempts; with round robin one of the draws finds
a healthy backend that admits it, in an attempt that is made. -/
def GetsThrough (lb : LoadBalancer) (attempts : ℕ) (now : ℕ → ℤ) : Prop :=
  match lb.strategy with
  | .LeastConnections =>
    ∃ i b, LoadBalancer.LeastLoaded lb.backends i ∧ lb.backends[i]? = some b ∧
      ∃ a < attempts, b.circuitBreaker.Admits (now a)
  | .RoundRobin =>
    ∃ k b, lb.backends[lb.draw k]? = some b ∧ b.healthy = true ∧ Drawn lb k ∧
      healthyDraws lb k < attempts ∧ b.circuitBreaker.Admits (now (healthyDraws lb k))

theorem reaches_iff_getsThrough (cfg : ForwardConfig) (req : HttpRequest)
    (order : List (Σ _ : Bytes, Bytes)) (env : ℕ → Surroundings) (u : Upstream) :
    Reaches (forwardWithResilience cfg req order env u) ↔
      GetsThrough u.lb cfg.attempts fun a => (env a).now := by
  rw [forwardWithResilience, loop_reaches_iff, List.map_map]
  unfold GetsThrough
  cases hs : u.lb.strategy with
  | LeastConnections =>
    rw [meets_leastConnections_iff hs]
    simp only [List.mem_map, List.mem_range, Function.comp_apply, exists_exists_and_eq_and]
  | RoundRobin =>
    have hreading : ∀ a now, ((List.range cfg.attempts).map (Surroundings.now ∘ env))[a]? = some now ↔
        a < cfg.attempts ∧ (env a).now = now := by
      intro a now
      rw [List.getElem?_eq_some_iff]
      simp
    rw [meets_roundRobin_iff hs]
    simp only [DrawAdmits, hreading]
    constructor
    · rintro ⟨k, b, now, hb, hhealthy, hdrawn, ⟨hlt, rfl⟩, hadm⟩
      exact ⟨k, b, hb, hhealthy, hdrawn, hlt, hadm⟩
    · rintro ⟨k, b, hb, hhealthy, hdrawn, hlt, hadm⟩
      exact ⟨k, b, _, hb, hhealthy, hdrawn, ⟨hlt, rfl⟩, hadm⟩

/-- **Round robin does not mask a usable backend**, unless the counter wraps around on the way. -/
theorem getsThrough_of_seamless {lb : LoadBalancer} (hs : lb.strategy = .RoundRobin)
    (hseam : lb.Seamless) {b : Backend} (hb : b ∈ lb.backends) (hhealthy : b.healthy = true)
    (hclosed : b.circuitBreaker.state = .Closed) {attempts : ℕ} (hattempts : lb.size ≤ attempts)
    (now : ℕ → ℤ) : GetsThrough lb attempts now := by
  obtain ⟨idx, hidx⟩ := List.mem_iff_getElem?.mp hb
  obtain ⟨k, hk, rfl⟩ := hseam.exists_draw_eq (List.getElem?_eq_some_iff.mp hidx).1
  unfold GetsThrough
  rw [hs]
  have hcount : healthyDraws lb k ≤ k := Nat.count_le _
  exact ⟨k, b, hidx, hhealthy, fun j hj => by omega, by omega, .inl hclosed⟩

/-- **When a call reaches a backend.** The two strategies differ: least connections can pick one backend
with an open breaker in every attempt, while round robin moves on, and reaches every usable backend in
as many attempts as there are backends as long as the counter does not wrap around. A call that reaches
none is answered 503. -/
theorem exchange_reached_iff (cfg : ForwardConfig) (req : HttpRequest)
    (order : List (Σ _ : Bytes, Bytes)) (env : ℕ → Surroundings) (u : Upstream) :
    (Reaches (forwardWithResilience cfg req order env u) ↔
      GetsThrough u.lb cfg.attempts fun a => (env a).now) ∧
    (u.lb.strategy = .RoundRobin → u.lb.Seamless →
      (∃ b ∈ u.lb.backends, b.healthy = true ∧ b.circuitBreaker.state = .Closed) →
      u.lb.size ≤ cfg.attempts → Reaches (forwardWithResilience cfg req order env u)) ∧
    (¬ Reaches (forwardWithResilience cfg req order env u) →
      (forwardWithResilience cfg req order env u).1 = noHealthyBackends ∨
        (forwardWithResilience cfg req order env u).1 = allRetriesExhausted) := by
  refine ⟨reaches_iff_getsThrough cfg req order env u, ?_, loop_answer_of_not_reaches⟩
  rintro hs hseam ⟨b, hb, hhealthy, hclosed⟩ hattempts
  rw [reaches_iff_getsThrough]
  exact getsThrough_of_seamless hs hseam hb hhealthy hclosed hattempts _

/-- An idle backend with an open breaker, and a busy one with a closed breaker. -/
def openAndClosed (strategy : LbStrategy) : Upstream where
  lb :=
    { backends :=
        [{ host := bytes "a", port := 9001,
           circuitBreaker := { failureThreshold := 5, resetTimeout := 5000, state := .Open } },
         { host := bytes "b", port := 9001, activeConnections := 1,
           circuitBreaker := { failureThreshold := 5, resetTimeout := 5000 } }]
      strategy }
  pool := { maxIdlePerBackend := 32 }

/-- With round robin the second attempt gets through. -/
theorem exchange_reached_openAndClosed :
    Reaches (forwardWithResilience ⟨3, 1024⟩ {} [] (fun _ => { now := 100 })
      (openAndClosed .RoundRobin)) :=
  (exchange_reached_iff ⟨3, 1024⟩ {} [] (fun _ => { now := 100 }) (openAndClosed .RoundRobin)).2.1
    rfl (.inl (by decide)) (by decide) (by decide)

/-- With least connections all attempts go to the open breaker. -/
theorem open_breaker_masks_sibling :
    (∃ b ∈ (openAndClosed .LeastConnections).lb.backends,
      b.healthy = true ∧ b.circuitBreaker.state = .Closed) ∧
    (openAndClosed .LeastConnections).lb.size ≤ ForwardConfig.attempts ⟨3, 1024⟩ ∧
    (forwardWithResilience ⟨3, 1024⟩ {} [] (fun _ => { now := 100 })
      (openAndClosed .LeastConnections)).1 = allRetriesExhausted ∧
    (forwardWithResilience ⟨3, 1024⟩ {} [] (fun _ => { now := 100 })
      (openAndClosed .LeastConnections)).2.2 = [.refused 0, .refused 0, .refused 0, .refused 0] ∧
    ¬ Reaches (forwardWithResilience ⟨3, 1024⟩ {} [] (fun _ => { now := 100 })
      (openAndClosed .LeastConnections)) := by
  decide

end ApiGateway.Core
