import ApiGateway.Common.Reactive
import ApiGateway.Core.Forwarding

/-!
# Workers in `forwardWithResilience`

Any number of workers that run `forwardWithResilience` at the same time, on the same backends and the same
pool of connections. The state of a worker is the place in the code where it is, with the local variables
that it still needs; a worker's step is up to and including its next atomic operation: a load, a
`fetch_add` or `fetch_sub`, a call of a breaker, a critical section of the pool, or a system call. What
`dialNew`, the clock and the exchange with the backend return is an input of the step. The health checker
sets the health flags in between.

System calls, breaker calls and results of `pick` are logged.

Reference: `Gateway::forwardWithResilience` in `src/core/Gateway.cpp`.
-/

namespace ApiGateway.Core

open Str Http Routing Resilience Network

/-! ## The model -/

/-- A backend of a group. -/
structure BackendRef where
  group : ℕ
  index : ℕ
deriving DecidableEq, Repr

/-- A call of `forwardWithResilience` for a route to a group, in its `for` loop. -/
structure ForwardCall where
  group : ℕ
  attempt : ℕ := 0
  attempts : ℕ
deriving DecidableEq, Repr

/-- Inside `pick`, before an atomic operation: the `fetch_add` of round `i` and the load of the health flag
after it, or the two loads for backend `j` with the best one so far. -/
inductive Scan where
  | drawing (i : ℕ)
  | drawn (i idx : ℕ)
  | looking (j : ℕ) (best : Option (ℕ × ℤ))
  | loading (j : ℕ) (best : Option (ℕ × ℤ))
deriving DecidableEq, Repr

/-- Where a worker is. -/
inductive Stage where
  /-- Not in `forwardWithResilience`. -/
  | idle
  | picking (call : ForwardCall) (scan : Scan)
  /-- Before `allowRequest`. -/
  | picked (call : ForwardCall) (i : ℕ)
  /-- Before `fetch_add`. -/
  | admitted (call : ForwardCall) (i : ℕ)
  /-- In `acquire`, before the critical section. -/
  | acquiring (call : ForwardCall) (i : ℕ)
  | dialing (call : ForwardCall) (i : ℕ)
  /-- Before `sendAndReceive`, which is left out without a descriptor. -/
  | exchanging (call : ForwardCall) (i : ℕ) (fd : ℤ)
  /-- Before `fetch_sub`. -/
  | exchanged (call : ForwardCall) (i : ℕ) (fd : ℤ) (outcome : Option (HttpResponse × Bool))
  /-- Before `onSuccess`, or before `discard` after a failure. -/
  | settling (call : ForwardCall) (i : ℕ) (fd : ℤ) (outcome : Option (HttpResponse × Bool))
  /-- Before `release` or `discard`. -/
  | succeeded (call : ForwardCall) (i : ℕ) (fd : ℤ) (resp : HttpResponse) (reusable : Bool)
  /-- Before `onFailure`. -/
  | failed (call : ForwardCall) (i : ℕ)
deriving DecidableEq, Repr

/-- What is logged. -/
inductive Act where
  /-- `dialNew` has opened a descriptor. -/
  | dialed (fd : ℤ) (host : Bytes) (port : ℤ)
  /-- `send` and `recv`. -/
  | used (fd : ℤ)
  | closed (fd : ℤ)
  /-- `pick` has returned. -/
  | chose (w : ℕ) (group : ℕ) (result : Option ℕ)
  /-- `allowRequest` has returned `true`. -/
  | admitted (w : ℕ) (b : BackendRef)
  /-- `onSuccess` or `onFailure`. -/
  | reported (w : ℕ) (b : BackendRef) (ok : Bool)
deriving DecidableEq, Repr

/-- What the surroundings give to a step. -/
structure Input where
  now : ℤ := 0
  dialed : ℤ := -1
  outcome : Option (HttpResponse × Bool) := none

/-- The backends, the pool and the workers. -/
structure Gateway where
  groups : ℕ → LoadBalancer
  pool : ConnectionPool
  workers : ℕ → Stage := fun _ => .idle

/-- The next attempt of a call. -/
def ForwardCall.next (call : ForwardCall) : ForwardCall := { call with attempt := call.attempt + 1 }

/-- `pick` returns; without a backend so does the call. -/
def endPick (w : ℕ) (call : ForwardCall) : Option ℕ → Stage × List Act
  | none => (.idle, [.chose w call.group none])
  | some i => (.picked call i, [.chose w call.group (some i)])

/-- The top of the `for` loop, up to the first atomic operation of `pick`. -/
def startAttempt (groups : ℕ → LoadBalancer) (w : ℕ) (call : ForwardCall) : Stage × List Act :=
  if call.attempt < call.attempts then
    if (groups call.group).backends = [] then endPick w call none
    else
      match (groups call.group).strategy with
      | .RoundRobin => (.picking call (.drawing 0), [])
      | .LeastConnections => (.picking call (.looking 0 none), [])
  else (.idle, [])

/-- The top of the loop in `pickLeastConnections`. -/
def look (lb : LoadBalancer) (w : ℕ) (call : ForwardCall) (j : ℕ) (best : Option (ℕ × ℤ)) :
    Stage × List Act :=
  if j < lb.size then (.picking call (.looking j best), []) else endPick w call (best.map (·.1))

/-- The load of `activeConnections`. -/
def loadConnections (lb : LoadBalancer) (j : ℕ) : ℤ := (lb.backends[j]?.map (·.activeConnections)).getD 0

/-- An atomic operation of `pick`. -/
def scanStep (lb : LoadBalancer) (w : ℕ) (call : ForwardCall) : Scan → LoadBalancer × Stage × List Act
  | .drawing i =>
    ({ lb with rrCounter := lb.rrCounter + 1 }, .picking call (.drawn i lb.nextIndex), [])
  | .drawn i idx =>
    (lb,
      if lb.isHealthy idx then endPick w call (some idx)
      else if i + 1 < lb.size then (.picking call (.drawing (i + 1)), [])
      else endPick w call none)
  | .looking j best =>
    (lb,
      if lb.isHealthy j then (.picking call (.loading j best), []) else look lb w call (j + 1) best)
  | .loading j best =>
    let conns := loadConnections lb j
    let best :=
      match best with
      | none => some (j, conns)
      | some (i, bestConns) => if conns < bestConns then some (j, conns) else some (i, bestConns)
    (lb, look lb w call (j + 1) best)

namespace Gateway

/-- Change one backend. -/
def modify (gw : Gateway) (group i : ℕ) (f : Backend → Backend) : Gateway :=
  { gw with groups := Function.update gw.groups group ((gw.groups group).update i f) }

/-- The worker moves on. -/
def goTo (gw : Gateway) (w : ℕ) (next : Stage × List Act) : Gateway × List Act :=
  ({ gw with workers := Function.update gw.workers w next.1 }, next.2)

/-- The breaker's decision. -/
def admits (gw : Gateway) (group i : ℕ) (now : ℤ) : Bool :=
  (gw.groups group).backends[i]?.any fun b => (b.circuitBreaker.allowRequest now).1

/-- Host and port of a backend. -/
def address (gw : Gateway) (group i : ℕ) : Bytes × ℤ :=
  ((gw.groups group).backends[i]?.map fun b => (b.host, b.port)).getD ([], 0)

/-- The end of an attempt: the call returns, or goes on with the next attempt. -/
def endAttempt (gw : Gateway) (w : ℕ) (call : ForwardCall) (outcome : Option HttpResponse) :
    Stage × List Act :=
  match answer (call.attempt + 1 = call.attempts) outcome with
  | some _ => (.idle, [])
  | none => startAttempt gw.groups w call.next

/-- The next step of a worker. -/
def step (gw : Gateway) (w : ℕ) (input : Input) : Gateway × List Act :=
  match gw.workers w with
  | .idle => (gw, [])
  | .picking call scan =>
    let (lb, next) := scanStep (gw.groups call.group) w call scan
    goTo { gw with groups := Function.update gw.groups call.group lb } w next
  | .picked call i =>
    let allowed := gw.admits call.group i input.now
    let gw := gw.modify call.group i fun b =>
      { b with circuitBreaker := (b.circuitBreaker.allowRequest input.now).2 }
    if allowed then gw.goTo w (.admitted call i, [.admitted w ⟨call.group, i⟩])
    else gw.goTo w (startAttempt gw.groups w call.next)
  | .admitted call i =>
    (gw.modify call.group i fun b => { b with activeConnections := b.activeConnections + 1 }).goTo w
      (.acquiring call i, [])
  | .acquiring call i =>
    let (host, port) := gw.address call.group i
    if gw.pool.queue (ConnectionPool.key host port) = [] then gw.goTo w (.dialing call i, [])
    else
      let (fd, pool) := gw.pool.acquire host port (-1)
      goTo { gw with pool } w (.exchanging call i fd, [])
  | .dialing call i =>
    let (host, port) := gw.address call.group i
    gw.goTo w (.exchanging call i input.dialed,
      if 0 ≤ input.dialed then [.dialed input.dialed host port] else [])
  | .exchanging call i fd =>
    if 0 ≤ fd then gw.goTo w (.exchanged call i fd input.outcome, [.used fd])
    else gw.goTo w (.exchanged call i fd none, [])
  | .exchanged call i fd outcome =>
    (gw.modify call.group i fun b => { b with activeConnections := b.activeConnections - 1 }).goTo w
      (.settling call i fd outcome, [])
  -- a success is reported before the descriptor is put back, and a failure after it is closed
  | .settling call i fd (some (resp, reusable)) =>
    (gw.modify call.group i fun b => { b with circuitBreaker := b.circuitBreaker.onSuccess }).goTo w
      (.succeeded call i fd resp reusable, [.reported w ⟨call.group, i⟩ true])
  | .settling call i fd none => gw.goTo w (.failed call i, (ConnectionPool.discard fd).map .closed)
  | .succeeded call i fd resp reusable =>
    let (host, port) := gw.address call.group i
    let (pool, closed) :=
      if reusable then gw.pool.release host port fd else (gw.pool, ConnectionPool.discard fd)
    let next := gw.endAttempt w call (some resp)
    goTo { gw with pool } w (next.1, closed.map .closed ++ next.2)
  | .failed call i =>
    let gw := gw.modify call.group i fun b =>
      { b with circuitBreaker := b.circuitBreaker.onFailure input.now }
    let next := gw.endAttempt w call none
    gw.goTo w (next.1, .reported w ⟨call.group, i⟩ false :: next.2)

end Gateway

/-- What can happen next. -/
inductive Move where
  /-- A worker calls `forwardWithResilience`. -/
  | call (w group attempts : ℕ)
  | step (w : ℕ) (input : Input)
  /-- The health checker has probed a backend. -/
  | health (group i : ℕ) (healthy : Bool)
  /-- `closeAll`, which meets the queues in this order. -/
  | closeAll (keys : List Bytes)

def Gateway.move (gw : Gateway) : Move → Gateway × List Act
  | .call w group attempts =>
    if gw.workers w = .idle then gw.goTo w (startAttempt gw.groups w { group, attempts }) else (gw, [])
  | .step w input => gw.step w input
  | .health group i healthy => (gw.modify group i fun b => { b with healthy }, [])
  | .closeAll keys =>
    let (pool, closed) := gw.pool.closeAll keys
    ({ gw with pool }, closed.map .closed)

/-- No connections, and nobody at work. -/
def Gateway.start (groups : ℕ → LoadBalancer) (maxIdlePerBackend : ℕ) : Gateway where
  groups
  pool := { maxIdlePerBackend }

/-! ## Backends -/

namespace Gateway

/-- The backend with a number. -/
def backend (gw : Gateway) (b : BackendRef) : Option Backend := (gw.groups b.group).backends[b.index]?

theorem backend_modify (gw : Gateway) (group i : ℕ) (f : Backend → Backend) (b : BackendRef) :
    (gw.modify group i f).backend b = if b = ⟨group, i⟩ then (gw.backend b).map f else gw.backend b := by
  obtain ⟨group', i'⟩ := b
  by_cases hgroup : group' = group
  · subst hgroup
    simp only [backend, modify, Function.update_self, LoadBalancer.update, List.getElem?_modify,
      BackendRef.mk.injEq, true_and, eq_comm (a := i)]
    split <;> simp
  · simp [backend, modify, hgroup]

theorem address_congr {gw gw' : Gateway}
    (h : ∀ b, (gw'.backend b).map (fun b => (b.host, b.port)) = (gw.backend b).map fun b => (b.host, b.port))
    (group i : ℕ) : gw'.address group i = gw.address group i :=
  congrArg (·.getD ([], 0)) (h ⟨group, i⟩)

theorem address_modify (gw : Gateway) (group i : ℕ) (f : Backend → Backend)
    (hf : ∀ b, (f b).host = b.host ∧ (f b).port = b.port) (group' i' : ℕ) :
    (gw.modify group i f).address group' i' = gw.address group' i' := by
  refine address_congr (fun b => ?_) group' i'
  rw [backend_modify]
  split
  · simp [Function.comp_def, hf]
  · rfl

end Gateway

/-! ## Between two attempts -/

/-- The worker is not in an attempt, or not past the breaker. -/
def Stage.Outside : Stage → Prop
  | .idle => True
  | .picking _ _ => True
  | .picked _ _ => True
  | _ => False

/-- A worker goes to a place outside, and does nothing on the way but return from `pick`. -/
structure StaysOutside (w : ℕ) (next : Stage × List Act) : Prop where
  stage : next.1.Outside
  acts : ∀ a ∈ next.2, ∃ group result, a = .chose w group result

theorem staysOutside_endPick (w : ℕ) (call : ForwardCall) (result : Option ℕ) :
    StaysOutside w (endPick w call result) := by
  cases result with
  | none => exact ⟨trivial, by simp [endPick]⟩
  | some i => exact ⟨trivial, by simp [endPick]⟩

theorem staysOutside_startAttempt (groups : ℕ → LoadBalancer) (w : ℕ) (call : ForwardCall) :
    StaysOutside w (startAttempt groups w call) := by
  unfold startAttempt
  split
  · split
    · exact staysOutside_endPick w call none
    · split
      · exact ⟨trivial, by simp⟩
      · exact ⟨trivial, by simp⟩
  · exact ⟨trivial, by simp⟩

theorem staysOutside_look (lb : LoadBalancer) (w : ℕ) (call : ForwardCall) (j : ℕ)
    (best : Option (ℕ × ℤ)) : StaysOutside w (look lb w call j best) := by
  unfold look
  split
  · exact ⟨trivial, by simp⟩
  · exact staysOutside_endPick w call _

theorem staysOutside_scanStep (lb : LoadBalancer) (w : ℕ) (call : ForwardCall) (scan : Scan) :
    StaysOutside w (scanStep lb w call scan).2 := by
  cases scan with
  | drawing i => exact ⟨trivial, by simp [scanStep]⟩
  | drawn i idx =>
    rw [scanStep]
    split
    · exact staysOutside_endPick w call (some idx)
    · split
      · exact ⟨trivial, by simp⟩
      · exact staysOutside_endPick w call none
  | looking j best =>
    rw [scanStep]
    split
    · exact ⟨trivial, by simp⟩
    · exact staysOutside_look lb w call (j + 1) best
  | loading j best => exact staysOutside_look lb w call _ _

/-- `pick` changes nothing but the counter. -/
theorem backends_scanStep (lb : LoadBalancer) (w : ℕ) (call : ForwardCall) (scan : Scan) :
    (scanStep lb w call scan).1.backends = lb.backends := by
  cases scan <;> rfl

theorem Gateway.backend_scan (gw : Gateway) (w : ℕ) (call : ForwardCall) (scan : Scan) (b : BackendRef) :
    backend
      { gw with
        groups := Function.update gw.groups call.group (scanStep (gw.groups call.group) w call scan).1 }
      b = gw.backend b := by
  by_cases hgroup : b.group = call.group
  · simp only [backend, hgroup, Function.update_self, backends_scanStep]
  · simp only [backend, Function.update_of_ne hgroup]

theorem Gateway.address_scan (gw : Gateway) (w : ℕ) (call : ForwardCall) (scan : Scan) (group i : ℕ) :
    address
      { gw with
        groups := Function.update gw.groups call.group (scanStep (gw.groups call.group) w call scan).1 }
      group i = gw.address group i :=
  address_congr (fun b => by rw [backend_scan]) group i

theorem staysOutside_endAttempt (gw : Gateway) (w : ℕ) (call : ForwardCall)
    (outcome : Option HttpResponse) : StaysOutside w (gw.endAttempt w call outcome) := by
  unfold Gateway.endAttempt
  split
  · exact ⟨trivial, by simp⟩
  · exact staysOutside_startAttempt _ w _

end ApiGateway.Core
