import ApiGateway.Core.InFlight

/-!
# Calls return

`forwardWithResilience` takes no lock for longer than an atomic operation, and its loops are bounded: `attempts`
rounds, with a `pick` that looks at each backend once. `Stage.left` bounds the steps that a worker has still to make.
Its own steps lower the bound, and what other workers and the health checker do does not raise it, whatever they do to
the counters, the flags and the breakers. So a worker never waits for another one: a call returns after as many
steps of its own as the number of attempts and the size of the group allow (`forward_wait_free`).

Reference: `Gateway::forwardWithResilience` in `src/core/Gateway.cpp`, `LoadBalancer::pick` in
`include/routing/LoadBalancer.hpp`.
-/

namespace ApiGateway.Core

open Str Http Routing Resilience Network

/-! ## What is left of a call -/

/-- The steps that are left of `pick` among `n` backends. -/
def Scan.left (n : ℕ) : Scan → ℕ
  | .drawing i => 2 * (n - i) + 2
  | .drawn i _ => 2 * (n - i) + 1
  | .looking j _ => 2 * (n - j) + 2
  | .loading j _ => 2 * (n - j) + 1

/-- The steps of an attempt. -/
def attemptSteps (n : ℕ) : ℕ := 2 * n + 10

/-- The steps of the attempts after this one. -/
def ForwardCall.later (n : ℕ) (call : ForwardCall) : ℕ := (call.attempts - call.attempt - 1) * attemptSteps n

/-- The steps that are left of a call, with the sizes of the groups. -/
def Stage.left (size : ℕ → ℕ) : Stage → ℕ
  | .idle => 0
  | .picking call scan => call.later (size call.group) + 8 + scan.left (size call.group)
  | .picked call _ => call.later (size call.group) + 8
  | .admitted call _ => call.later (size call.group) + 7
  | .acquiring call _ => call.later (size call.group) + 6
  | .dialing call _ => call.later (size call.group) + 5
  | .exchanging call _ _ => call.later (size call.group) + 4
  | .exchanged call _ _ _ => call.later (size call.group) + 3
  | .settling call _ _ _ => call.later (size call.group) + 2
  | .succeeded call _ _ _ _ => call.later (size call.group) + 1
  | .failed call _ => call.later (size call.group) + 1

/-- The sizes of the groups. -/
def Gateway.size (gw : Gateway) (group : ℕ) : ℕ := (gw.groups group).size

theorem Stage.left_eq_zero_iff {size : ℕ → ℕ} {stage : Stage} : stage.left size = 0 ↔ stage = .idle := by
  cases stage <;> simp [Stage.left]

section Steps

variable (w : ℕ) (call : ForwardCall)

theorem left_endPick (size : ℕ → ℕ) (result : Option ℕ) :
    (endPick w call result).1.left size ≤ call.later (size call.group) + 8 := by
  cases result with
  | none => exact Nat.zero_le _
  | some i => exact le_rfl

/-- The top of the `for` loop. -/
theorem left_startAttempt (gw : Gateway) :
    (startAttempt gw.groups w call).1.left gw.size
      ≤ (call.attempts - call.attempt) * attemptSteps (gw.size call.group) := by
  unfold startAttempt
  split
  · rename_i hlt
    have hlater : (call.attempts - call.attempt) * attemptSteps (gw.size call.group)
        = call.later (gw.size call.group) + attemptSteps (gw.size call.group) := by
      rw [ForwardCall.later, ← Nat.succ_mul]
      congr 1
      omega
    rw [hlater, attemptSteps]
    split
    · exact (left_endPick w call gw.size none).trans (by omega)
    · split
      · simp only [Stage.left, Scan.left]
        omega
      · simp only [Stage.left, Scan.left]
        omega
  · exact Nat.zero_le _

/-- The next attempt is one of those that are left. -/
theorem left_startAttempt_next (gw : Gateway) :
    (startAttempt gw.groups w call.next).1.left gw.size ≤ call.later (gw.size call.group) := by
  refine (left_startAttempt w call.next gw).trans ?_
  rw [ForwardCall.later, Nat.sub_sub]
  exact le_rfl

theorem left_endAttempt (gw : Gateway) (outcome : Option HttpResponse) :
    (gw.endAttempt w call outcome).1.left gw.size ≤ call.later (gw.size call.group) := by
  unfold Gateway.endAttempt
  split
  · exact Nat.zero_le _
  · exact left_startAttempt_next w call gw

theorem left_look (size : ℕ → ℕ) (lb : LoadBalancer) (hsize : size call.group = lb.size) (j : ℕ)
    (best : Option (ℕ × ℤ)) :
    (look lb w call (j + 1) best).1.left size ≤ call.later (size call.group) + 8 + 2 * (lb.size - j) := by
  unfold look
  split
  · simp only [Stage.left, Scan.left, hsize]
    omega
  · exact (left_endPick w call size _).trans (by omega)

/-- An operation of `pick` brings its end nearer. -/
theorem left_scanStep (size : ℕ → ℕ) (lb : LoadBalancer) (hsize : size call.group = lb.size) (scan : Scan) :
    (scanStep lb w call scan).2.1.left size < call.later (size call.group) + 8 + scan.left lb.size := by
  cases scan with
  | drawing i =>
    simp only [scanStep, Stage.left, Scan.left, hsize]
    omega
  | drawn i idx =>
    simp only [scanStep, Scan.left]
    split
    · exact (left_endPick w call size _).trans_lt (by omega)
    · split
      · simp only [Stage.left, Scan.left, hsize]
        omega
      · exact (left_endPick w call size _).trans_lt (by omega)
  | looking j best =>
    simp only [scanStep, Scan.left]
    split
    · simp only [Stage.left, Scan.left, hsize]
      omega
    · exact (left_look w call size lb hsize j best).trans_lt (by omega)
  | loading j best =>
    simp only [scanStep, Scan.left]
    exact (left_look w call size lb hsize j _).trans_lt (by omega)

end Steps

/-! ## Moves -/

theorem size_modify (gw : Gateway) (group i : ℕ) (f : Backend → Backend) : (gw.modify group i f).size = gw.size := by
  funext g
  by_cases hg : g = group
  · subst hg
    simp [Gateway.size, Gateway.modify, LoadBalancer.size, LoadBalancer.update]
  · simp [Gateway.size, Gateway.modify, hg]

theorem size_scan (gw : Gateway) (w : ℕ) (call : ForwardCall) (scan : Scan) :
    Gateway.size
      { gw with
        groups := Function.update gw.groups call.group (scanStep (gw.groups call.group) w call scan).1 }
      = gw.size := by
  funext g
  by_cases hg : g = call.group
  · subst hg
    simp [Gateway.size, LoadBalancer.size, backends_scanStep]
  · simp [Gateway.size, hg]

/-- The groups keep their sizes. -/
theorem size_step (gw : Gateway) (w : ℕ) (input : Input) : (gw.step w input).1.size = gw.size := by
  cases hstage : gw.workers w with
  | picking call scan =>
    simp only [Gateway.step, hstage]
    exact size_scan gw w call scan
  | picked call i =>
    simp only [Gateway.step, hstage]
    split
    · exact size_modify gw call.group i _
    · exact size_modify gw call.group i _
  | acquiring call i =>
    simp only [Gateway.step, hstage]
    split <;> rfl
  | exchanging call i fd =>
    simp only [Gateway.step, hstage]
    split <;> rfl
  | settling call i fd outcome =>
    cases outcome with
    | some result =>
      simp only [Gateway.step, hstage]
      exact size_modify gw call.group i _
    | none =>
      simp only [Gateway.step, hstage]
      rfl
  | idle => simp only [Gateway.step, hstage]
  | dialing call i =>
    simp only [Gateway.step, hstage]
    rfl
  | succeeded call i fd resp reusable =>
    simp only [Gateway.step, hstage]
    rfl
  | _ =>
    simp only [Gateway.step, hstage]
    exact size_modify gw _ _ _

theorem size_move (gw : Gateway) (e : Move) : (gw.move e).1.size = gw.size := by
  cases e with
  | call w group attempts =>
    rw [Gateway.move]
    split <;> rfl
  | step w input => exact size_step gw w input
  | health group i healthy => exact size_modify gw group i _
  | closeAll keys => rfl

theorem workers_goTo (gw : Gateway) (w : ℕ) (next : Stage × List Act) : (gw.goTo w next).1.workers w = next.1 :=
  Function.update_self w _ _

/-- **A worker's step** brings the end of its call nearer. -/
theorem left_step {gw : Gateway} {w : ℕ} (h : gw.workers w ≠ .idle) (input : Input) :
    ((gw.step w input).1.workers w).left gw.size < (gw.workers w).left gw.size := by
  cases hstage : gw.workers w with
  | idle => exact absurd hstage h
  | picking call scan =>
    simp only [Gateway.step, hstage, workers_goTo]
    exact left_scanStep w call gw.size (gw.groups call.group) rfl scan
  | picked call i =>
    simp only [Gateway.step, hstage]
    split
    · rw [workers_goTo]
      exact Nat.lt_succ_self _
    · have hle := left_startAttempt_next w call (gw.modify call.group i fun b =>
        { b with circuitBreaker := (b.circuitBreaker.allowRequest input.now).2 })
      rw [size_modify] at hle
      rw [workers_goTo, Stage.left]
      omega
  | acquiring call i =>
    simp only [Gateway.step, hstage]
    split
    · rw [workers_goTo]
      exact Nat.lt_succ_self _
    · rw [workers_goTo]
      simp only [Stage.left]
      omega
  | exchanging call i fd =>
    simp only [Gateway.step, hstage]
    split
    · rw [workers_goTo]
      exact Nat.lt_succ_self _
    · rw [workers_goTo]
      exact Nat.lt_succ_self _
  | settling call i fd outcome =>
    cases outcome with
    | some result =>
      simp only [Gateway.step, hstage, workers_goTo]
      exact Nat.lt_succ_self _
    | none =>
      simp only [Gateway.step, hstage, workers_goTo]
      exact Nat.lt_succ_self _
  | succeeded call i fd resp reusable =>
    simp only [Gateway.step, hstage, workers_goTo]
    exact Nat.lt_succ_of_le (left_endAttempt w call gw _)
  | failed call i =>
    have hle := left_endAttempt w call (gw.modify call.group i fun b =>
      { b with circuitBreaker := b.circuitBreaker.onFailure input.now }) none
    rw [size_modify] at hle
    simp only [Gateway.step, hstage, workers_goTo]
    exact Nat.lt_succ_of_le hle
  | _ =>
    simp only [Gateway.step, hstage, workers_goTo]
    exact Nat.lt_succ_self _

/-! ## Requests to backends -/

/-- The requests to backends that a call may still make. -/
def Stage.tries : Stage → ℕ
  | .idle => 0
  | .picking call _ => call.attempts - call.attempt - 1 + 1
  | .picked call _ => call.attempts - call.attempt - 1 + 1
  | .admitted call _ => call.attempts - call.attempt - 1
  | .acquiring call _ => call.attempts - call.attempt - 1
  | .dialing call _ => call.attempts - call.attempt - 1
  | .exchanging call _ _ => call.attempts - call.attempt - 1
  | .exchanged call _ _ _ => call.attempts - call.attempt - 1
  | .settling call _ _ _ => call.attempts - call.attempt - 1
  | .succeeded call _ _ _ _ => call.attempts - call.attempt - 1
  | .failed call _ => call.attempts - call.attempt - 1

/-- A breaker lets a request of the worker pass. -/
def Act.isAdmittedTo (w : ℕ) : Act → Bool
  | .admitted u _ => u = w
  | _ => false

theorem countP_isAdmittedTo_of_caller {w : ℕ} {acts : List Act} (h : ∀ a ∈ acts, a.caller ≠ some w) :
    acts.countP (Act.isAdmittedTo w) = 0 := by
  rw [List.countP_eq_zero]
  intro a ha
  have hcaller := h a ha
  cases a <;> simp_all [Act.caller, Act.isAdmittedTo]

theorem StaysOutside.countP_isAdmittedTo {w : ℕ} {next : Stage × List Act} (h : StaysOutside w next) :
    next.2.countP (Act.isAdmittedTo w) = 0 :=
  countP_isAdmittedTo_of_caller fun a ha => by simp [h.caller a ha]

section Tries

variable (w : ℕ) (call : ForwardCall)

theorem tries_endPick (result : Option ℕ) :
    (endPick w call result).1.tries ≤ call.attempts - call.attempt - 1 + 1 := by
  cases result with
  | none => exact Nat.zero_le _
  | some i => exact le_rfl

theorem tries_startAttempt (groups : ℕ → LoadBalancer) :
    (startAttempt groups w call).1.tries ≤ call.attempts - call.attempt := by
  unfold startAttempt
  split
  · have hlast := tries_endPick w call none
    split
    · omega
    · split
      · simp only [Stage.tries]
        omega
      · simp only [Stage.tries]
        omega
  · exact Nat.zero_le _

theorem tries_startAttempt_next (groups : ℕ → LoadBalancer) :
    (startAttempt groups w call.next).1.tries ≤ call.attempts - call.attempt - 1 := by
  refine (tries_startAttempt w call.next groups).trans ?_
  rw [Nat.sub_sub]
  exact le_rfl

theorem tries_endAttempt (gw : Gateway) (outcome : Option HttpResponse) :
    (gw.endAttempt w call outcome).1.tries ≤ call.attempts - call.attempt - 1 := by
  unfold Gateway.endAttempt
  split
  · exact Nat.zero_le _
  · exact tries_startAttempt_next w call gw.groups

theorem tries_look (lb : LoadBalancer) (j : ℕ) (best : Option (ℕ × ℤ)) :
    (look lb w call j best).1.tries ≤ call.attempts - call.attempt - 1 + 1 := by
  unfold look
  split
  · exact le_rfl
  · exact tries_endPick w call _

theorem tries_scanStep (lb : LoadBalancer) (scan : Scan) :
    (scanStep lb w call scan).2.1.tries ≤ call.attempts - call.attempt - 1 + 1 := by
  cases scan with
  | drawing i => exact le_rfl
  | drawn i idx =>
    simp only [scanStep]
    split
    · exact tries_endPick w call _
    · split
      · exact le_rfl
      · exact tries_endPick w call _
  | looking j best =>
    simp only [scanStep]
    split
    · exact le_rfl
    · exact tries_look w call lb _ _
  | loading j best => exact tries_look w call lb _ _

end Tries

theorem tries_goTo {gw : Gateway} {w : ℕ} {next : Stage × List Act} {k : ℕ}
    (hacts : next.2.countP (Act.isAdmittedTo w) = 0) (hle : next.1.tries ≤ k) :
    (gw.goTo w next).2.countP (Act.isAdmittedTo w) + ((gw.goTo w next).1.workers w).tries ≤ k := by
  rw [workers_goTo, Gateway.goTo, hacts, Nat.zero_add]
  exact hle

/-- A worker's request is one of those that it may make. -/
theorem tries_step (gw : Gateway) (w : ℕ) (input : Input) :
    (gw.step w input).2.countP (Act.isAdmittedTo w) + ((gw.step w input).1.workers w).tries
      ≤ (gw.workers w).tries := by
  cases hstage : gw.workers w with
  | idle =>
    simp only [Gateway.step, hstage]
    simp [Stage.tries]
  | picking call scan =>
    have hnext := staysOutside_scanStep (gw.groups call.group) w call scan
    simp only [Gateway.step, hstage]
    exact tries_goTo hnext.countP_isAdmittedTo (tries_scanStep w call _ scan)
  | picked call i =>
    simp only [Gateway.step, hstage]
    split
    · -- the request is counted, and is not left any more
      rw [workers_goTo]
      simp [Gateway.goTo, Act.isAdmittedTo, Stage.tries, Nat.add_comm]
    · have hnext := staysOutside_startAttempt (gw.modify call.group i fun b =>
        { b with circuitBreaker := (b.circuitBreaker.allowRequest input.now).2 }).groups w call.next
      exact tries_goTo hnext.countP_isAdmittedTo
        ((tries_startAttempt_next w call _).trans (Nat.le_succ _))
  | acquiring call i =>
    simp only [Gateway.step, hstage]
    split
    · exact tries_goTo rfl le_rfl
    · exact tries_goTo rfl le_rfl
  | dialing call i =>
    simp only [Gateway.step, hstage]
    refine tries_goTo ?_ le_rfl
    split <;> rfl
  | exchanging call i fd =>
    simp only [Gateway.step, hstage]
    split
    · exact tries_goTo rfl le_rfl
    · exact tries_goTo rfl le_rfl
  | settling call i fd outcome =>
    cases outcome with
    | some result =>
      simp only [Gateway.step, hstage]
      exact tries_goTo rfl le_rfl
    | none =>
      simp only [Gateway.step, hstage]
      exact tries_goTo (countP_isAdmittedTo_of_caller (by simp [Act.caller])) le_rfl
  | succeeded call i fd resp reusable =>
    have hnext := staysOutside_endAttempt gw w call (some resp)
    simp only [Gateway.step, hstage]
    refine tries_goTo (countP_isAdmittedTo_of_caller fun a ha => ?_) (tries_endAttempt w call gw _)
    rcases List.mem_append.mp ha with ha | ha
    · obtain ⟨fd, -, rfl⟩ := List.mem_map.mp ha
      simp [Act.caller]
    · simp [hnext.caller a ha]
  | failed call i =>
    have hnext := staysOutside_endAttempt (gw.modify call.group i fun b =>
      { b with circuitBreaker := b.circuitBreaker.onFailure input.now }) w call none
    simp only [Gateway.step, hstage]
    refine tries_goTo ?_ (tries_endAttempt w call _ none)
    rw [List.countP_cons_of_neg (by simp [Act.isAdmittedTo]), hnext.countP_isAdmittedTo]
  | _ =>
    simp only [Gateway.step, hstage]
    exact tries_goTo rfl le_rfl

theorem Entry.caller {w : ℕ} {before after : Option BackendRef} {acts : List Act} (h : Entry w before after acts)
    {a : Act} (ha : a ∈ acts) : a.caller = none ∨ a.caller = some w := by
  cases h with
  | nothing hacts => exact .inl (hacts a ha)
  | admitted b =>
    rw [List.mem_singleton.mp ha]
    exact .inr rfl
  | reported b ok hacts =>
    rcases List.mem_cons.mp ha with rfl | ha
    · exact .inr rfl
    · exact .inl (hacts a ha)

/-- The requests of other workers do not count. -/
theorem countP_move_other (gw : Gateway) {w : ℕ} {e : Move} (he : e.isStepOf w = false) :
    (gw.move e).2.countP (Act.isAdmittedTo w) = 0 := by
  refine countP_isAdmittedTo_of_caller fun a ha => ?_
  cases e with
  | call u group attempts =>
    rw [Gateway.move] at ha
    split at ha
    · simp [(staysOutside_startAttempt gw.groups u _).caller a ha]
    · cases ha
  | step u input =>
    have hne : u ≠ w := by simpa [Move.isStepOf] using he
    obtain ⟨stage, hr⟩ := accounts_step gw u input
    rcases hr.entry.caller ha with hcaller | hcaller
    · simp [hcaller]
    · simp [hcaller, hne]
  | health group i healthy => cases ha
  | closeAll keys =>
    obtain ⟨fd, -, rfl⟩ := List.mem_map.mp ha
    simp [Act.caller]

/-! ## Whole calls -/

/-- So many steps of a worker are enough, whatever happens in between. -/
theorem exists_idle {gw : Gateway} {w : ℕ} {es : List Move}
    (h : (gw.workers w).left gw.size ≤ es.countP (Move.isStepOf w)) :
    ∃ es', es' <+: es ∧ (Reactive.run Gateway.move gw es').1.workers w = .idle ∧
      (Reactive.run Gateway.move gw es').2.countP (Act.isAdmittedTo w) ≤ (gw.workers w).tries := by
  induction es generalizing gw with
  | nil =>
    exact ⟨[], List.prefix_rfl, Stage.left_eq_zero_iff.mp (Nat.le_zero.mp h), Nat.zero_le _⟩
  | cons e es ih =>
    by_cases hidle : gw.workers w = .idle
    · exact ⟨[], List.nil_prefix, hidle, Nat.zero_le _⟩
    · have hmove : ((gw.move e).1.workers w).left (gw.move e).1.size ≤ es.countP (Move.isStepOf w) ∧
          (gw.move e).2.countP (Act.isAdmittedTo w) + ((gw.move e).1.workers w).tries ≤ (gw.workers w).tries := by
        rw [size_move]
        by_cases he : e.isStepOf w = true
        · obtain ⟨input, rfl⟩ := exists_step_of_isStepOf he
          have hlt := left_step hidle input
          rw [List.countP_cons_of_pos he] at h
          rw [Gateway.move]
          exact ⟨by omega, tries_step gw w input⟩
        · rw [List.countP_cons_of_neg he] at h
          rw [move_other hidle (Bool.eq_false_of_not_eq_true he),
            countP_move_other gw (Bool.eq_false_of_not_eq_true he), Nat.zero_add]
          exact ⟨h, le_rfl⟩
      obtain ⟨hle, htries⟩ := hmove
      obtain ⟨es', hpre, hidle', hcount⟩ := ih hle
      refine ⟨e :: es', List.cons_prefix_cons.mpr ⟨rfl, hpre⟩, ?_, ?_⟩
      · rwa [Reactive.run_cons]
      · rw [Reactive.run_cons, List.countP_append]
        omega

/-- **Calls are wait-free.** Whatever other workers and the health checker do in between, a call of
`forwardWithResilience` in a group of `n` backends has returned when the worker has made `2 * n + 10` steps for each
attempt that it may make, and until then it has made no more requests to backends than attempts. -/
theorem forward_wait_free {gw : Gateway} {w : ℕ} (hidle : gw.workers w = .idle) (group attempts : ℕ)
    {es : List Move} (hes : attempts * (2 * gw.size group + 10) ≤ es.countP (Move.isStepOf w)) :
    ∃ es', es' <+: es ∧
      let r := Reactive.run Gateway.move gw (.call w group attempts :: es')
      r.1.workers w = .idle ∧ r.2.countP (Act.isAdmittedTo w) ≤ attempts := by
  have hstage : (gw.move (.call w group attempts)).1.workers w
      = (startAttempt gw.groups w { group, attempts }).1 := by
    rw [Gateway.move, if_pos hidle, workers_goTo]
  have hleft : ((gw.move (.call w group attempts)).1.workers w).left (gw.move (.call w group attempts)).1.size
      ≤ es.countP (Move.isStepOf w) := by
    rw [hstage, size_move]
    exact (left_startAttempt w { group, attempts } gw).trans hes
  obtain ⟨es', hpre, hidle', hcount⟩ := exists_idle hleft
  refine ⟨es', hpre, ?_⟩
  rw [hstage] at hcount
  have htries := tries_startAttempt w { group, attempts } gw.groups
  have hnone := countP_move_other gw (e := .call w group attempts) (w := w) rfl
  simp only [Reactive.run_cons, List.countP_append, hnone, Nat.zero_add]
  exact ⟨hidle', hcount.trans htries⟩

/-- Two workers in turn; the first one finds a backend that does not answer, and tries twice. -/
def inTurn : List Move :=
  .call 1 0 1 :: (List.replicate 24 [.step 0 { dialed := 3 }, .step 1 { dialed := 4 }]).flatten

theorem forward_wait_free_inTurn :
    ∃ es', es' <+: inTurn ∧
      let r := Reactive.run Gateway.move (Gateway.start leastConnected 1) (.call 0 0 2 :: es')
      r.1.workers 0 = .idle ∧ r.2.countP (Act.isAdmittedTo 0) ≤ 2 :=
  forward_wait_free rfl 0 2 (by decide)

end ApiGateway.Core
