import ApiGateway.Core.Attempts

/-!
# Workers that nobody disturbs

Between two steps of a worker in `forwardWithResilience` the others may move. Here nobody does: `Goes` chains
the steps of one worker. The atomic operations of a pick, one after the other, are then `LoadBalancer.pick`
(`pick_goes`), and those of a call are `forwardLoop` (`forwardLoop_goes`), so that the two models of
`forwardWithResilience` say the same of a worker on its own.
-/

namespace ApiGateway.Core

open Str Http Routing Resilience Network

/-! ## Steps of one worker -/

/-- With these inputs, and with no other move in between, worker `w` gets from one place to another; the
acts on the way are added to the log. -/
def Goes (w : ℕ) (inputs : List Input) (gw : Gateway) (next : Stage × List Act) (gw' : Gateway)
    (next' : Stage × List Act) : Prop :=
  ∃ acts, next'.2 = next.2 ++ acts ∧
    Reactive.run Gateway.move (gw.goTo w next).1 (inputs.map (.step w)) = ((gw'.goTo w next').1, acts)

namespace Goes

variable {w : ℕ} {inputs inputs' : List Input} {gw gw₁ gw₂ : Gateway} {a b c : Stage × List Act}

theorem refl (w : ℕ) (gw : Gateway) (a : Stage × List Act) : Goes w [] gw a gw a :=
  ⟨[], (List.append_nil _).symm, rfl⟩

theorem trans (h : Goes w inputs gw a gw₁ b) (h' : Goes w inputs' gw₁ b gw₂ c) :
    Goes w (inputs ++ inputs') gw a gw₂ c := by
  obtain ⟨acts, hacts, hrun⟩ := h
  obtain ⟨acts', hacts', hrun'⟩ := h'
  refine ⟨acts ++ acts', by rw [hacts', hacts, List.append_assoc], ?_⟩
  rw [List.map_append, Reactive.run_append, hrun, hrun']

theorem step {input : Input} (acts : List Act)
    (h : (gw.goTo w a).1.step w input = gw₁.goTo w (b.1, acts)) (hacts : b.2 = a.2 ++ acts) :
    Goes w [input] gw a gw₁ b := by
  refine ⟨acts, hacts, ?_⟩
  rw [List.map_singleton, Reactive.run_cons, Gateway.move, h]
  exact congrArg (Prod.mk _) (List.append_nil acts)

/-- More in the log, before and after. -/
theorem after (h : Goes w inputs gw a gw₁ b) (acts : List Act) :
    Goes w inputs gw (a.1, acts ++ a.2) gw₁ (b.1, acts ++ b.2) := by
  obtain ⟨new, hnew, hrun⟩ := h
  exact ⟨new, by rw [hnew, List.append_assoc], hrun⟩

end Goes

/-! ## Picks -/

/-- The balancer of a group after an operation. -/
def Gateway.setGroup (gw : Gateway) (group : ℕ) (lb : LoadBalancer) : Gateway :=
  { gw with groups := Function.update gw.groups group lb }

@[simp] theorem Gateway.groups_setGroup (gw : Gateway) (group : ℕ) (lb : LoadBalancer) :
    (gw.setGroup group lb).groups group = lb := Function.update_self _ _ _

@[simp] theorem Gateway.setGroup_setGroup (gw : Gateway) (group : ℕ) (lb lb' : LoadBalancer) :
    (gw.setGroup group lb).setGroup group lb' = gw.setGroup group lb' := by
  simp [setGroup]

@[simp] theorem Gateway.setGroup_self (gw : Gateway) (group : ℕ) :
    gw.setGroup group (gw.groups group) = gw := by
  simp [setGroup]

/-- An atomic operation of `pick`. -/
theorem scan_goes (gw : Gateway) (w : ℕ) (call : ForwardCall) (scan : Scan) (input : Input) :
    Goes w [input] gw (.picking call scan, [])
      (gw.setGroup call.group (scanStep (gw.groups call.group) w call scan).1)
      (scanStep (gw.groups call.group) w call scan).2 := by
  refine Goes.step (scanStep (gw.groups call.group) w call scan).2.2 ?_ rfl
  simp [Gateway.step, Gateway.goTo, Gateway.setGroup]

/-- A load in `pick`. -/
theorem load_goes {gw : Gateway} {w : ℕ} {call : ForwardCall} {scan : Scan} {next : Stage × List Act}
    (hnext : (scanStep (gw.groups call.group) w call scan).2 = next)
    (hload : (scanStep (gw.groups call.group) w call scan).1 = gw.groups call.group) (input : Input) :
    Goes w [input] gw (.picking call scan, []) gw next := by
  have := scan_goes gw w call scan input
  rwa [hload, hnext, Gateway.setGroup_self] at this

/-- `best` and `bestConns` before backend `j` is looked at. -/
def bestBefore (lb : LoadBalancer) (j : ℕ) : Option (ℕ × ℤ) :=
  (lb.backends.zipIdx.take j).foldl LoadBalancer.better none

theorem bestBefore_succ {lb : LoadBalancer} {j : ℕ} {b : Backend} (hb : lb.backends[j]? = some b) :
    bestBefore lb (j + 1) = LoadBalancer.better (bestBefore lb j) (b, j) := by
  have hzip : lb.backends.zipIdx[j]? = some (b, j) := by simp [hb]
  rw [bestBefore, List.take_add_one, hzip, List.foldl_append]
  rfl

theorem bestBefore_size (lb : LoadBalancer) :
    (bestBefore lb lb.size).map (·.1) = lb.pickLeastConnections := by
  rw [bestBefore, LoadBalancer.size, ← List.length_zipIdx (l := lb.backends), List.take_length]
  rfl

/-- Looking at a backend. -/
theorem scan_looking {lb : LoadBalancer} {j : ℕ} {b : Backend} (hb : lb.backends[j]? = some b) (w : ℕ)
    (call : ForwardCall) (hhealthy : b.healthy = false) :
    (scanStep lb w call (.looking j (bestBefore lb j))).2
      = look lb w call (j + 1) (bestBefore lb (j + 1)) := by
  have hskip : bestBefore lb (j + 1) = bestBefore lb j := by
    rw [bestBefore_succ hb]
    simp [LoadBalancer.better, hhealthy]
  simp [scanStep, LoadBalancer.isHealthy, hb, hhealthy, hskip]

theorem scan_loading {lb : LoadBalancer} {j : ℕ} {b : Backend} (hb : lb.backends[j]? = some b) (w : ℕ)
    (call : ForwardCall) (hhealthy : b.healthy = true) :
    (scanStep lb w call (.loading j (bestBefore lb j))).2
      = look lb w call (j + 1) (bestBefore lb (j + 1)) := by
  rw [bestBefore_succ hb]
  rcases bestBefore lb j with _ | ⟨i, bestConns⟩
  · simp [scanStep, loadConnections, hb, LoadBalancer.better, hhealthy]
  · simp [scanStep, loadConnections, hb, LoadBalancer.better, hhealthy]

/-- **The rest of a pick by least connections**, from the top of its loop on. -/
theorem look_goes (gw : Gateway) (w : ℕ) (call : ForwardCall) (n j : ℕ)
    (hn : j + n = (gw.groups call.group).size) :
    ∃ k, ∀ inputs : List Input, inputs.length = k →
      Goes w inputs gw (look (gw.groups call.group) w call j (bestBefore (gw.groups call.group) j)) gw
        (endPick w call (gw.groups call.group).pickLeastConnections) := by
  induction n generalizing j with
  | zero =>
    refine ⟨0, fun inputs hinputs => ?_⟩
    obtain rfl : j = (gw.groups call.group).size := hn
    obtain rfl := List.length_eq_zero_iff.mp hinputs
    rw [look, if_neg (lt_irrefl _), bestBefore_size]
    exact Goes.refl w gw _
  | succ n ih =>
    obtain ⟨k, hk⟩ := ih (j + 1) (by omega)
    have hlt : j < (gw.groups call.group).size := by omega
    obtain ⟨b, hb⟩ : ∃ b, (gw.groups call.group).backends[j]? = some b :=
      ⟨_, List.getElem?_eq_getElem hlt⟩
    rw [look, if_pos hlt]
    cases hhealthy : b.healthy with
    | false =>
      refine ⟨k + 1, fun inputs hinputs => ?_⟩
      obtain ⟨input, inputs, rfl⟩ := List.exists_cons_of_length_eq_add_one hinputs
      exact (load_goes (scan_looking hb w call hhealthy) rfl input).trans (hk inputs (by simpa using hinputs))
    | true =>
      -- one step for the health flag, and one for the number of connections
      refine ⟨k + 2, fun inputs hinputs => ?_⟩
      obtain ⟨input, inputs, rfl⟩ := List.exists_cons_of_length_eq_add_one hinputs
      obtain ⟨input', inputs, rfl⟩ := List.exists_cons_of_length_eq_add_one (by simpa using hinputs)
      have hhealth : (scanStep (gw.groups call.group) w call
          (.looking j (bestBefore (gw.groups call.group) j))).2
          = (.picking call (.loading j (bestBefore (gw.groups call.group) j)), []) := by
        simp [scanStep, LoadBalancer.isHealthy, hb, hhealthy]
      have hload := load_goes (scan_loading hb w call hhealthy) rfl input'
      exact (load_goes hhealth rfl input).trans (hload.trans (hk inputs (by simpa using hinputs)))

/-- One round of `pickRoundRobin`: the counter, and then the health flag. -/
theorem round_goes (gw : Gateway) (w : ℕ) (call : ForwardCall) (i : ℕ) (input input' : Input) :
    Goes w [input, input'] gw (.picking call (.drawing i), [])
      (gw.setGroup call.group ((gw.groups call.group).advance 1))
      (if (gw.groups call.group).isHealthy (gw.groups call.group).nextIndex then
        endPick w call (some (gw.groups call.group).nextIndex)
      else if i + 1 < (gw.groups call.group).size then (.picking call (.drawing (i + 1)), [])
      else endPick w call none) := by
  have hdraw := scan_goes gw w call (.drawing i) input
  refine Goes.trans hdraw (load_goes ?_ ?_ input')
  · rw [Gateway.groups_setGroup]
    rfl
  · rfl

/-- **The rest of a round-robin pick**, with so many rounds left. -/
theorem draw_goes (gw : Gateway) (w : ℕ) (call : ForwardCall) (n i : ℕ)
    (hn : i + (n + 1) = (gw.groups call.group).size) :
    ∃ k, ∀ inputs : List Input, inputs.length = k →
      Goes w inputs gw (.picking call (.drawing i), [])
        (gw.setGroup call.group (LoadBalancer.pickRoundRobinLoop (n + 1) (gw.groups call.group)).2)
        (endPick w call (LoadBalancer.pickRoundRobinLoop (n + 1) (gw.groups call.group)).1) := by
  induction n generalizing gw i with
  | zero =>
    refine ⟨2, fun inputs hinputs => ?_⟩
    obtain ⟨input, input', rfl⟩ := List.length_eq_two.mp hinputs
    have hround := round_goes gw w call i input input'
    rw [if_neg (by omega : ¬ i + 1 < (gw.groups call.group).size)] at hround
    rw [LoadBalancer.pickRoundRobinLoop_succ]
    split
    · rename_i hhealthy
      rwa [if_pos hhealthy] at hround
    · rename_i hhealthy
      rwa [if_neg hhealthy] at hround
  | succ n ih =>
    rw [LoadBalancer.pickRoundRobinLoop_succ]
    split
    · rename_i hhealthy
      refine ⟨2, fun inputs hinputs => ?_⟩
      obtain ⟨input, input', rfl⟩ := List.length_eq_two.mp hinputs
      have hround := round_goes gw w call i input input'
      rwa [if_pos hhealthy] at hround
    · -- after a vain draw, a pick with one round less and another counter is left
      rename_i hhealthy
      have hsize : i + 1 + (n + 1)
          = ((gw.setGroup call.group ((gw.groups call.group).advance 1)).groups call.group).size := by
        rw [Gateway.groups_setGroup]
        exact (Nat.add_right_comm i 1 (n + 1)).trans hn
      obtain ⟨k, hk⟩ := ih _ (i + 1) hsize
      rw [Gateway.groups_setGroup, Gateway.setGroup_setGroup] at hk
      refine ⟨k + 2, fun inputs hinputs => ?_⟩
      obtain ⟨input, inputs, rfl⟩ := List.exists_cons_of_length_eq_add_one hinputs
      obtain ⟨input', inputs, rfl⟩ := List.exists_cons_of_length_eq_add_one (by simpa using hinputs)
      have hround := round_goes gw w call i input input'
      rw [if_neg hhealthy, if_pos (by omega)] at hround
      exact hround.trans (hk inputs (by simpa using hinputs))

/-- **A pick on its own** is `LoadBalancer.pick`. -/
theorem pick_goes (gw : Gateway) (w : ℕ) (call : ForwardCall) (hcall : call.attempt < call.attempts) :
    ∃ k, ∀ inputs : List Input, inputs.length = k →
      Goes w inputs gw (startAttempt gw.groups w call)
        (gw.setGroup call.group (gw.groups call.group).pick.2)
        (endPick w call (gw.groups call.group).pick.1) := by
  rw [startAttempt, if_pos hcall]
  by_cases hnil : (gw.groups call.group).backends = []
  · refine ⟨0, fun inputs hinputs => ?_⟩
    obtain rfl := List.length_eq_zero_iff.mp hinputs
    rw [if_pos hnil, LoadBalancer.pick, if_pos hnil, Gateway.setGroup_self]
    exact Goes.refl w gw _
  · have hsize : 0 < (gw.groups call.group).size := List.length_pos_iff.mpr hnil
    rw [if_neg hnil]
    cases hstrategy : (gw.groups call.group).strategy with
    | RoundRobin =>
      obtain ⟨n, hn⟩ : ∃ n, 0 + (n + 1) = (gw.groups call.group).size :=
        ⟨(gw.groups call.group).size - 1, by omega⟩
      obtain ⟨k, hk⟩ := draw_goes gw w call n 0 hn
      rw [Nat.zero_add] at hn
      rw [LoadBalancer.pick_of_roundRobin hstrategy, LoadBalancer.pickRoundRobin, ← hn]
      exact ⟨k, hk⟩
    | LeastConnections =>
      obtain ⟨k, hk⟩ := look_goes gw w call _ 0 (Nat.zero_add _)
      rw [LoadBalancer.pick_of_leastConnections hstrategy, Gateway.setGroup_self]
      rw [look, if_pos hsize] at hk
      exact ⟨k, hk⟩

/-! ## Attempts -/

/-- The state behind a group, as a call finds it. -/
def Gateway.upstream (gw : Gateway) (group : ℕ) : Upstream := { lb := gw.groups group, pool := gw.pool }

/-- The gateway with another state behind a group. -/
def Gateway.setUpstream (gw : Gateway) (group : ℕ) (u : Upstream) : Gateway :=
  { gw.setGroup group u.lb with pool := u.pool }

/-- Addresses and breakers do not depend on the workers. -/
theorem Gateway.address_at (gw : Gateway) (workers : ℕ → Stage) (group i : ℕ) :
    Gateway.address { gw with workers } group i = gw.address group i := rfl

theorem Gateway.admits_at (gw : Gateway) (workers : ℕ → Stage) (group i : ℕ) (now : ℤ) :
    Gateway.admits { gw with workers } group i now = gw.admits group i now := rfl

/-- Index `i` stands for the host and port of `b`. -/
def Upstream.At (u : Upstream) (i : ℕ) (b : Backend) : Prop :=
  (u.lb.backends[i]?.map fun b => (b.host, b.port)) = some (b.host, b.port)

theorem Upstream.At.update {u : Upstream} {i : ℕ} {b : Backend} (h : u.At i b) {f : Backend → Backend}
    (hf : ∀ b, (f b).host = b.host ∧ (f b).port = b.port) : { u with lb := u.lb.update i f }.At i b := by
  simpa [At, LoadBalancer.update, hf] using h

theorem Upstream.At.addConnections {u : Upstream} {i : ℕ} {b : Backend} (h : u.At i b) (n : ℤ) :
    (u.addConnections i n).At i b :=
  h.update fun _ => ⟨rfl, rfl⟩

theorem Upstream.At.report {u : Upstream} {i : ℕ} {b : Backend} (h : u.At i b) (ok : Bool) (now : ℤ) :
    (u.report i ok now).At i b :=
  h.update fun _ => ⟨rfl, rfl⟩

section Upstream

variable (gw : Gateway) (group : ℕ) (u : Upstream)

theorem Gateway.setUpstream_upstream : gw.setUpstream group (gw.upstream group) = gw := by
  simp [setUpstream, upstream]

@[simp] theorem Gateway.groups_setUpstream : (gw.setUpstream group u).groups group = u.lb :=
  gw.groups_setGroup group u.lb

@[simp] theorem Gateway.setGroup_setUpstream (lb : LoadBalancer) :
    (gw.setUpstream group u).setGroup group lb = gw.setUpstream group { u with lb } := by
  simp [setUpstream, setGroup]

@[simp] theorem Gateway.modify_setUpstream (i : ℕ) (f : Backend → Backend) :
    (gw.setUpstream group u).modify group i f
      = gw.setUpstream group { u with lb := u.lb.update i f } := by
  simp [setUpstream, setGroup, modify]

variable {u}

theorem Gateway.address_setUpstream {i : ℕ} {b : Backend} (h : u.At i b) :
    (gw.setUpstream group u).address group i = (b.host, b.port) := by
  rw [address, groups_setUpstream, h]
  rfl

theorem Gateway.admits_setUpstream {i : ℕ} {b : Backend} (hb : u.lb.backends[i]? = some b) (now : ℤ) :
    (gw.setUpstream group u).admits group i now = (b.circuitBreaker.allowRequest now).1 := by
  simp [admits, hb]

end Upstream

/-- The descriptors that were closed. -/
def closes (acts : List Act) : List ℤ :=
  acts.filterMap fun
    | .closed fd => some fd
    | _ => none

/-- The reports to the breakers. -/
def reports (acts : List Act) : List (ℕ × Bool) :=
  acts.filterMap fun
    | .reported _ b ok => some (b.index, ok)
    | _ => none

/-- The report of a trial. -/
def Trial.report : Trial → Option (ℕ × Bool)
  | .refused _ => none
  | .exchanged i outcome => some (i, outcome.isSome)

/-- The acts close what is closed between two states, and report what the trials report. -/
structure Tells (acts : List Act) (u u' : Upstream) (trials : List Trial) : Prop where
  closed : u'.closed = (closes acts).reverse ++ u.closed
  reports : reports acts = trials.filterMap Trial.report

theorem closes_append (acts acts' : List Act) : closes (acts ++ acts') = closes acts ++ closes acts' :=
  List.filterMap_append

theorem reports_append (acts acts' : List Act) : reports (acts ++ acts') = reports acts ++ reports acts' :=
  List.filterMap_append

theorem closes_closed (fds : List ℤ) : closes (fds.map .closed) = fds := by
  simp [closes, List.filterMap_map]

theorem reports_closed (fds : List ℤ) : reports (fds.map .closed) = [] := by
  simp [reports, List.filterMap_map]

theorem Tells.append {acts acts' : List Act} {u u' u'' : Upstream} {trials trials' : List Trial}
    (h : Tells acts u u' trials) (h' : Tells acts' u' u'' trials') :
    Tells (acts ++ acts') u u'' (trials ++ trials') where
  closed := by rw [h'.closed, h.closed, closes_append, List.reverse_append, List.append_assoc]
  reports := by rw [reports_append, h.reports, h'.reports, List.filterMap_append]

/-- `release` or `discard` after a response, with what is closed. -/
def putBack (p : ConnectionPool) (host : Bytes) (port fd : ℤ) (reusable : Bool) : ConnectionPool × List ℤ :=
  if reusable then p.release host port fd else (p, ConnectionPool.discard fd)

theorem reverse_discard (fd : ℤ) : (ConnectionPool.discard fd).reverse = ConnectionPool.discard fd := by
  unfold ConnectionPool.discard
  split <;> rfl

theorem reverse_putBack (p : ConnectionPool) (host : Bytes) (port fd : ℤ) (reusable : Bool) :
    (putBack p host port fd reusable).2.reverse = (putBack p host port fd reusable).2 := by
  unfold putBack
  split
  · rcases p.release_cases host port fd with ⟨h, -⟩ | ⟨h, -⟩
    · rw [h]
      rfl
    · rw [h]
      rfl
  · exact reverse_discard fd

section Attempt

variable (gw : Gateway) (w : ℕ) (call : ForwardCall) (u : Upstream) (i : ℕ) (fd : ℤ) (l : List Act)

theorem admitted_goes :
    Goes w [{}] (gw.setUpstream call.group u) (.admitted call i, l)
      (gw.setUpstream call.group (u.addConnections i 1)) (.acquiring call i, l) := by
  refine Goes.step [] ?_ (List.append_nil l).symm
  rw [Upstream.addConnections, ← Gateway.modify_setUpstream]
  simp [Gateway.step, Gateway.goTo, Gateway.modify]

/-- `acquire`, with or without a dial. -/
theorem acquiring_goes {b : Backend} (h : u.At i b) (dialed : ℤ) :
    ∃ inputs acts, Goes w inputs (gw.setUpstream call.group u) (.acquiring call i, l)
      (gw.setUpstream call.group { u with pool := (u.pool.acquire b.host b.port dialed).2 })
      (.exchanging call i (u.pool.acquire b.host b.port dialed).1, l ++ acts) ∧
      closes acts = [] ∧ reports acts = [] := by
  have haddress := gw.address_setUpstream call.group h
  by_cases hnil : u.pool.queue (ConnectionPool.key b.host b.port) = []
  · -- the critical section finds nothing, and the dial is a step of its own
    rw [ConnectionPool.acquire_of_nil hnil]
    have hmiss : Goes w [{}] (gw.setUpstream call.group u) (.acquiring call i, l)
        (gw.setUpstream call.group u) (.dialing call i, l) := by
      refine Goes.step [] ?_ (List.append_nil l).symm
      simp only [Gateway.step, Gateway.goTo, Function.update_self, Gateway.address_at, haddress]
      rw [if_pos (by exact hnil)]
      simp
    refine ⟨[{}, { dialed }], if 0 ≤ dialed then [.dialed dialed b.host b.port] else [],
      hmiss.trans (Goes.step _ ?_ rfl), ?_, ?_⟩
    · simp [Gateway.step, Gateway.goTo, Gateway.address_at, haddress]
    · split <;> rfl
    · split <;> rfl
  · refine ⟨[{}], [], Goes.step [] ?_ rfl, rfl, rfl⟩
    simp only [Gateway.step, Gateway.goTo, Function.update_self, Gateway.address_at, haddress]
    rw [if_neg (by exact hnil), ConnectionPool.acquire_of_ne_nil hnil dialed (-1)]
    simp [Gateway.setUpstream, Gateway.setGroup]

theorem exchanging_goes (outcome : Option (HttpResponse × Bool)) :
    Goes w [{ outcome }] (gw.setUpstream call.group u) (.exchanging call i fd, l)
      (gw.setUpstream call.group u)
      (.exchanged call i fd (if 0 ≤ fd then outcome else none), l ++ if 0 ≤ fd then [.used fd] else []) := by
  refine Goes.step _ ?_ rfl
  by_cases hfd : 0 ≤ fd
  · simp [Gateway.step, Gateway.goTo, hfd]
  · simp [Gateway.step, Gateway.goTo, hfd]

theorem exchanged_goes (outcome : Option (HttpResponse × Bool)) :
    Goes w [{}] (gw.setUpstream call.group u) (.exchanged call i fd outcome, l)
      (gw.setUpstream call.group (u.addConnections i (-1))) (.settling call i fd outcome, l) := by
  refine Goes.step [] ?_ (List.append_nil l).symm
  rw [Upstream.addConnections, ← Gateway.modify_setUpstream]
  simp [Gateway.step, Gateway.goTo, Gateway.modify, sub_eq_add_neg]

theorem success_goes (resp : HttpResponse) (reusable : Bool) (now : ℤ) :
    Goes w [{}] (gw.setUpstream call.group u) (.settling call i fd (some (resp, reusable)), l)
      (gw.setUpstream call.group (u.report i true now))
      (.succeeded call i fd resp reusable, l ++ [.reported w ⟨call.group, i⟩ true]) := by
  refine Goes.step _ ?_ rfl
  rw [Upstream.report, ← Gateway.modify_setUpstream]
  simp [Gateway.step, Gateway.goTo, Gateway.modify, CircuitBreaker.report]

/-- The end of an attempt that was answered. -/
theorem succeeded_goes {b : Backend} (h : u.At i b) (resp : HttpResponse)
    (reusable : Bool) :
    let put := putBack u.pool b.host b.port fd reusable
    let u' : Upstream := { u with pool := put.1, closed := put.2 ++ u.closed }
    let next := (gw.setUpstream call.group u').endAttempt w call (some resp)
    Goes w [{}] (gw.setUpstream call.group u) (.succeeded call i fd resp reusable, l)
      (gw.setUpstream call.group u') (next.1, l ++ put.2.map .closed ++ next.2) := by
  intro put u' next
  refine Goes.step (put.2.map .closed ++ next.2) ?_ (List.append_assoc _ _ _)
  have haddress := gw.address_setUpstream call.group h
  simp only [Gateway.step, Gateway.goTo, Function.update_self, Gateway.address_at, haddress]
  simp [put, u', next, putBack, Gateway.setUpstream, Gateway.setGroup, Gateway.endAttempt]

theorem discarded_goes :
    Goes w [{}] (gw.setUpstream call.group u) (.settling call i fd none, l)
      (gw.setUpstream call.group u) (.failed call i, l ++ (ConnectionPool.discard fd).map .closed) := by
  refine Goes.step _ ?_ rfl
  simp [Gateway.step, Gateway.goTo]

/-- The end of an attempt that failed. -/
theorem failed_goes (now : ℤ) :
    let next := (gw.setUpstream call.group (u.report i false now)).endAttempt w call none
    Goes w [{ now }] (gw.setUpstream call.group u) (.failed call i, l)
      (gw.setUpstream call.group (u.report i false now))
      (next.1, l ++ .reported w ⟨call.group, i⟩ false :: next.2) := by
  intro next
  refine Goes.step _ ?_ rfl
  simp only [next]
  rw [Upstream.report, ← Gateway.modify_setUpstream]
  simp [Gateway.step, Gateway.goTo, Gateway.modify, CircuitBreaker.report, Gateway.endAttempt]

end Attempt

/-- The end of `exchange`, with the result of `sendAndReceive`. -/
def Upstream.settle (u : Upstream) (i : ℕ) (b : Backend) (fd now : ℤ) :
    Option (HttpResponse × Bool) → Option HttpResponse × Upstream
  | some (resp, reusable) =>
    let put := putBack u.pool b.host b.port fd reusable
    (some resp, { u.report i true now with pool := put.1, closed := put.2 ++ u.closed })
  | none => (none, { u.report i false now with closed := ConnectionPool.discard fd ++ u.closed })

theorem Upstream.exchange_eq_settle (u : Upstream) (cfg : ForwardConfig) (req : HttpRequest)
    (order : List (Σ _ : Bytes, Bytes)) (s : Surroundings) (i : ℕ) (b : Backend) :
    let acquired := (u.addConnections i 1).pool.acquire b.host b.port s.dialed
    u.exchange cfg req order s i b
      = ({ u.addConnections i 1 with pool := acquired.2 }.addConnections i (-1)).settle i b acquired.1
        s.failedAt (if 0 ≤ acquired.1 then sendAndReceive (buildBackendRequest req order b.host)
          cfg.maxResponseBodyBytes s.sends s.reads else none) := by
  intro acquired
  rcases hresult : (if 0 ≤ ((u.addConnections i 1).pool.acquire b.host b.port s.dialed).1 then
    sendAndReceive (buildBackendRequest req order b.host) cfg.maxResponseBodyBytes s.sends s.reads
    else none) with _ | ⟨resp, reusable⟩
  · simp only [exchange, acquired, hresult, settle]
    refine congrArg (Prod.mk none) ?_
    unfold ConnectionPool.discard
    split
    · rfl
    · rfl
  · simp only [exchange, acquired, hresult, settle]
    cases reusable with
    | true => rfl
    | false => rfl

/-- **The end of an attempt.** -/
theorem settle_goes (gw : Gateway) (w : ℕ) (call : ForwardCall) {u : Upstream} {i : ℕ} {b : Backend}
    (h : u.At i b) (fd now : ℤ) (result : Option (HttpResponse × Bool)) (l : List Act) :
    let r := u.settle i b fd now result
    let next := (gw.setUpstream call.group r.2).endAttempt w call r.1
    ∃ inputs acts, Goes w inputs (gw.setUpstream call.group u) (.settling call i fd result, l)
      (gw.setUpstream call.group r.2) (next.1, l ++ acts ++ next.2) ∧
      Tells acts u r.2 [.exchanged i r.1] := by
  intro r next
  cases result with
  | some result =>
    obtain ⟨resp, reusable⟩ := result
    have hend := (success_goes gw w call u i fd l resp reusable now).trans
      (succeeded_goes gw w call (u.report i true now) i fd _ (h.report true now) resp reusable)
    refine ⟨[{}, {}], [.reported w ⟨call.group, i⟩ true] ++
      (putBack u.pool b.host b.port fd reusable).2.map .closed, ?_, ?_, ?_⟩
    · rw [← List.append_assoc]
      exact hend
    · rw [closes_append, closes_closed, List.reverse_append, reverse_putBack, List.append_assoc]
      rfl
    · rw [reports_append, reports_closed]
      rfl
  | none =>
    have hend := (discarded_goes gw w call u i fd l).trans (failed_goes gw w call u i _ now)
    refine ⟨[{}, { now }],
      (ConnectionPool.discard fd).map .closed ++ [.reported w ⟨call.group, i⟩ false], ?_, ?_, ?_⟩
    · rw [← List.append_assoc, List.append_assoc]
      exact hend
    · rw [closes_append, closes_closed, List.reverse_append, reverse_discard]
      rfl
    · rw [reports_append, reports_closed]
      rfl

/-- **From the admission to the end of `sendAndReceive`**, for which `outcome` is given. -/
theorem connect_goes (gw : Gateway) (w : ℕ) (call : ForwardCall) {u : Upstream} {i : ℕ} {b : Backend}
    (h : u.At i b) (dialed : ℤ) (outcome : Option (HttpResponse × Bool)) (l : List Act) :
    let acquired := (u.addConnections i 1).pool.acquire b.host b.port dialed
    let u' := { u.addConnections i 1 with pool := acquired.2 }.addConnections i (-1)
    ∃ inputs acts, Goes w inputs (gw.setUpstream call.group u) (.admitted call i, l)
      (gw.setUpstream call.group u')
      (.settling call i acquired.1 (if 0 ≤ acquired.1 then outcome else none), l ++ acts) ∧
      Tells acts u u' [] := by
  intro acquired u'
  obtain ⟨inputs, acts, hacquire, hcloses, hreports⟩ :=
    acquiring_goes gw w call (u.addConnections i 1) i l (h.addConnections 1) dialed
  have hexchange := exchanging_goes gw w call { u.addConnections i 1 with pool := acquired.2 } i acquired.1
    (l ++ acts) outcome
  have hused : closes (if 0 ≤ acquired.1 then [.used acquired.1] else []) = [] ∧
      reports (if 0 ≤ acquired.1 then [.used acquired.1] else []) = [] := by
    split
    · exact ⟨rfl, rfl⟩
    · exact ⟨rfl, rfl⟩
  have hway := (admitted_goes gw w call u i l).trans (hacquire.trans (hexchange.trans
    (exchanged_goes gw w call _ i acquired.1 _ _)))
  rw [List.append_assoc] at hway
  refine ⟨_, _, hway, ?_, ?_⟩
  · rw [closes_append, hcloses, hused.1]
    rfl
  · rw [reports_append, hreports, hused.2]
    rfl

/-- **From the admission to the end of the attempt**, the steps are `exchange`. -/
theorem exchange_goes (gw : Gateway) (w : ℕ) (call : ForwardCall) {u : Upstream} {i : ℕ} {b : Backend}
    (h : u.At i b) (cfg : ForwardConfig) (req : HttpRequest) (order : List (Σ _ : Bytes, Bytes))
    (s : Surroundings) (l : List Act) :
    let r := u.exchange cfg req order s i b
    let next := (gw.setUpstream call.group r.2).endAttempt w call r.1
    ∃ inputs acts, Goes w inputs (gw.setUpstream call.group u) (.admitted call i, l)
      (gw.setUpstream call.group r.2) (next.1, l ++ acts ++ next.2) ∧
      Tells acts u r.2 [.exchanged i r.1] := by
  rw [u.exchange_eq_settle cfg req order s i b]
  obtain ⟨inputs, acts, hconnect, htells⟩ := connect_goes gw w call h s.dialed
    (sendAndReceive (buildBackendRequest req order b.host) cfg.maxResponseBodyBytes s.sends s.reads) l
  let acquired := (u.addConnections i 1).pool.acquire b.host b.port s.dialed
  have hconnected : { u.addConnections i 1 with pool := acquired.2 }.At i b := h.addConnections 1
  obtain ⟨inputs', acts', hsettle, htells'⟩ := settle_goes gw w call (hconnected.addConnections (-1))
    acquired.1 s.failedAt (if 0 ≤ acquired.1 then sendAndReceive (buildBackendRequest req order b.host)
      cfg.maxResponseBodyBytes s.sends s.reads else none) (l ++ acts)
  refine ⟨inputs ++ inputs', acts ++ acts', ?_, htells.append htells'⟩
  rw [← List.append_assoc]
  exact hconnect.trans hsettle

/-! ## Calls -/

section Pick

variable (gw : Gateway) (w : ℕ) (call : ForwardCall) {u : Upstream} {i : ℕ} {b : Backend}
  (hpick : u.lb.pickBackend.1 = some (i, b)) (l : List Act)
include hpick

theorem getElem?_pick : u.lb.pick.2.backends[i]? = some b := by
  obtain ⟨k, hk⟩ := u.lb.exists_pick_snd_eq_advance
  rw [hk]
  exact ((u.lb.pickBackend_fst_eq_some_iff i b).mp hpick).2

/-- `allowRequest`. -/
theorem modify_asked (now : ℤ) :
    (gw.setUpstream call.group { u with lb := u.lb.pick.2 }).modify call.group i (fun b =>
        { b with circuitBreaker := (b.circuitBreaker.allowRequest now).2 })
      = gw.setUpstream call.group (u.asked i b now) := by
  rw [Gateway.modify_setUpstream, LoadBalancer.update_congr (getElem?_pick hpick)
    (g := fun b' => { b' with circuitBreaker := (b.circuitBreaker.allowRequest now).2 }) rfl]
  rfl

theorem admits_pick (now : ℤ) :
    (gw.setUpstream call.group { u with lb := u.lb.pick.2 }).admits call.group i now
      = (b.circuitBreaker.allowRequest now).1 :=
  gw.admits_setUpstream call.group (getElem?_pick hpick) now

theorem allowed_goes {now : ℤ} (h : b.circuitBreaker.Admits now) :
    Goes w [{ now }] (gw.setUpstream call.group { u with lb := u.lb.pick.2 }) (.picked call i, l)
      (gw.setUpstream call.group (u.asked i b now))
      (.admitted call i, l ++ [.admitted w ⟨call.group, i⟩]) := by
  have hadmits := (b.circuitBreaker.allowRequest_fst_iff now).mpr h
  rw [← admits_pick gw call hpick] at hadmits
  refine Goes.step _ ?_ rfl
  rw [← modify_asked gw call hpick now]
  simp only [Gateway.step, Gateway.goTo, Function.update_self, Gateway.admits_at, hadmits]
  simp [Gateway.modify]

theorem refused_goes {now : ℤ} (h : ¬ b.circuitBreaker.Admits now) :
    let next := startAttempt (gw.setUpstream call.group (u.asked i b now)).groups w call.next
    Goes w [{ now }] (gw.setUpstream call.group { u with lb := u.lb.pick.2 }) (.picked call i, l)
      (gw.setUpstream call.group (u.asked i b now)) (next.1, l ++ next.2) := by
  intro next
  have hadmits : ¬ (b.circuitBreaker.allowRequest now).1 = true :=
    fun hallowed => h ((b.circuitBreaker.allowRequest_fst_iff now).mp hallowed)
  rw [← admits_pick gw call hpick] at hadmits
  refine Goes.step _ ?_ rfl
  simp only [next]
  rw [← modify_asked gw call hpick now]
  simp only [Gateway.step, Gateway.goTo, Function.update_self, Gateway.admits_at, hadmits]
  simp [Gateway.modify]

end Pick

/-- **A call that nobody disturbs** does what `forwardLoop` does. -/
theorem forwardLoop_goes (gw : Gateway) (w : ℕ) (cfg : ForwardConfig) (req : HttpRequest)
    (order : List (Σ _ : Bytes, Bytes)) (ss : List Surroundings) (u : Upstream) (call : ForwardCall)
    (hcall : call.attempt + ss.length = call.attempts) :
    let r := forwardLoop cfg req order ss u
    ∃ inputs acts, Goes w inputs (gw.setUpstream call.group u)
      (startAttempt (gw.setUpstream call.group u).groups w call)
      (gw.setUpstream call.group r.2.1) (.idle, acts) ∧ Tells acts u r.2.1 r.2.2 := by
  induction ss generalizing u call with
  | nil =>
    rw [List.length_nil, Nat.add_zero] at hcall
    rw [startAttempt, if_neg hcall.not_lt]
    exact ⟨[], [], Goes.refl w _ _, rfl, rfl⟩
  | cons s rest ih =>
    rw [List.length_cons] at hcall
    obtain ⟨k, hk⟩ := pick_goes (gw.setUpstream call.group u) w call (by omega)
    have hpicked := hk (List.replicate k {}) List.length_replicate
    rw [Gateway.groups_setUpstream, Gateway.setGroup_setUpstream] at hpicked
    have hnext : call.next.attempt + rest.length = call.next.attempts := by
      show call.attempt + 1 + rest.length = call.attempts
      omega
    rcases forwardLoop_cons cfg req order s rest u with ⟨hnone, heq⟩ | ⟨i, b, hpick, hattempt⟩
    · rw [heq]
      rw [(u.lb.pickBackend_fst_eq_none_iff).mp hnone] at hpicked
      exact ⟨_, _, hpicked, rfl, rfl⟩
    · obtain ⟨hsome, hb⟩ := (u.lb.pickBackend_fst_eq_some_iff i b).mp hpick
      rw [hsome] at hpicked
      rcases hattempt with ⟨hrefused, heq⟩ | ⟨hadmitted, outcome, u', hexchange, hend⟩
      · obtain ⟨inputs, acts, hgoes, htells⟩ := ih (u.asked i b s.now) call.next hnext
        rw [heq]
        refine ⟨_, .chose w call.group (some i) :: acts,
          (hpicked.trans (refused_goes gw w call hpick _ hrefused)).trans (hgoes.after [_]), ?_, ?_⟩
        · exact htells.closed
        · exact htells.reports
      · have hat : (u.asked i b s.now).At i b := by
          refine Upstream.At.update (u := { u with lb := u.lb.pick.2 }) ?_ fun _ => ⟨rfl, rfl⟩
          rw [Upstream.At, getElem?_pick hpick]
          rfl
        obtain ⟨inputs, acts, hgoes, htells⟩ := exchange_goes gw w call hat cfg req order s
          [.chose w call.group (some i), .admitted w ⟨call.group, i⟩]
        rw [hexchange] at hgoes htells
        have hattempt := (hpicked.trans (allowed_goes gw w call hpick _ hadmitted)).trans hgoes
        -- an attempt is the last one if there are no surroundings for another
        have hlast : decide (call.attempt + 1 = call.attempts) = decide (rest = []) := by
          rw [decide_eq_decide, ← List.length_eq_zero_iff]
          omega
        have htold : Tells ([.chose w call.group (some i), .admitted w ⟨call.group, i⟩] ++ acts) u u'
            [.exchanged i outcome] := ⟨htells.closed, htells.reports⟩
        rcases hend with ⟨resp, hanswer, heq⟩ | ⟨hanswer, heq⟩
        · rw [heq]
          simp only [Gateway.endAttempt, hlast, hanswer, List.append_nil] at hattempt
          exact ⟨_, _, hattempt, htold⟩
        · obtain ⟨inputs', acts', hgoes', htells'⟩ := ih u' call.next hnext
          rw [heq]
          simp only [Gateway.endAttempt, hlast, hanswer] at hattempt
          exact ⟨_, _, hattempt.trans (hgoes'.after _), htold.append htells'⟩

/-- **The two models agree.** A worker that calls `forwardWithResilience` and is not disturbed leaves the
backends and the pool as `forwardLoop` does, and is idle again; it has closed the same descriptors, and the
breakers have got the same reports. -/
theorem forwardWithResilience_alone (cfg : ForwardConfig) (req : HttpRequest)
    (order : List (Σ _ : Bytes, Bytes)) (env : ℕ → Surroundings) {gw : Gateway} {w : ℕ}
    (hidle : gw.workers w = .idle) (group : ℕ) :
    let r := forwardWithResilience cfg req order env (gw.upstream group)
    ∃ (inputs : List Input) (acts : List Act),
      Reactive.run Gateway.move gw (.call w group cfg.attempts :: inputs.map (.step w))
        = (gw.setUpstream group r.2.1, acts) ∧
      closes acts = r.2.1.closed.reverse ∧ reports acts = r.2.2.filterMap Trial.report := by
  intro r
  obtain ⟨inputs, acts, ⟨steps, hsteps, hrun⟩, htells⟩ := forwardLoop_goes gw w cfg req order
    ((List.range cfg.attempts).map env) (gw.upstream group) { group, attempts := cfg.attempts } (by simp)
  rw [gw.setUpstream_upstream] at hsteps hrun
  have hback : ((gw.setUpstream group r.2.1).goTo w (.idle, acts)).1 = gw.setUpstream group r.2.1 := by
    have hworkers : (gw.setUpstream group r.2.1).workers w = .idle := hidle
    rw [Gateway.goTo, ← hworkers, Function.update_eq_self]
  refine ⟨inputs, acts, ?_, ?_, htells.reports⟩
  · rw [Reactive.run_cons, Gateway.move, if_pos hidle, hrun]
    exact Prod.ext hback hsteps.symm
  · have hclosed : r.2.1.closed = (closes acts).reverse ++ [] := htells.closed
    rw [hclosed, List.append_nil, List.reverse_reverse]

end ApiGateway.Core
