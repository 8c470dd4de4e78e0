import ApiGateway.Core.InFlight

/-!
# The breakers of a gateway

`BreakerCall` says what a move of the gateway does to the breakers: nothing, or one call of one breaker, by a worker
that owes it no report when it asks and owes it one when it reports.

Two results follow for any number of workers in any order. A breaker of the gateway goes through the states of the
abstract `System`, with the workers that are past it and have not reported as the outstanding ones
(`breakers_refine_system`): so no breaker stays half-open when the workers are idle. And a backend whose breaker is
open is left alone: until a request to it succeeds, it gets at most one in each reset timeout
(`open_backend_left_alone`).

Reference: `Gateway::forwardWithResilience` in `src/core/Gateway.cpp`, `include/resilience/CircuitBreaker.hpp`.
-/

namespace ApiGateway.Core

open Str Http Routing Resilience Network

/-! ## Calls -/

namespace Gateway

/-- The breaker of a backend. -/
def breaker (gw : Gateway) (b : BackendRef) : Option CircuitBreaker := (gw.backend b).map (·.circuitBreaker)

theorem breaker_modify (gw : Gateway) (group i : ℕ) (f : Backend → Backend) (g : CircuitBreaker → CircuitBreaker)
    (hf : ∀ b, (f b).circuitBreaker = g b.circuitBreaker) (b : BackendRef) :
    (gw.modify group i f).breaker b = if b = ⟨group, i⟩ then (gw.breaker b).map g else gw.breaker b := by
  rw [breaker, backend_modify]
  split
  · rw [breaker, Option.map_map, Option.map_map]
    exact congrArg (Option.map · (gw.backend b)) (funext hf)
  · rfl

/-- Something else of a backend is changed. -/
theorem breaker_modify_of_same (gw : Gateway) (group i : ℕ) (f : Backend → Backend)
    (hf : ∀ b, (f b).circuitBreaker = b.circuitBreaker) (b : BackendRef) :
    (gw.modify group i f).breaker b = gw.breaker b := by
  rw [breaker_modify gw group i f id hf, Option.map_id_fun, id, ite_self]

theorem admits_eq (gw : Gateway) (group i : ℕ) (now : ℤ) :
    gw.admits group i now = (gw.breaker ⟨group, i⟩).any fun cb => (cb.allowRequest now).1 := by
  rw [admits, breaker, backend]
  cases (gw.groups group).backends[i]? <;> rfl

end Gateway

/-- The clock that a move reads. -/
def Move.time : Move → Option ℤ
  | .step _ input => some input.now
  | _ => none

/-- **What a move does to the breakers.** -/
inductive BreakerCall (gw : Gateway) (r : Gateway × List Act) : Option ℤ → Prop
  | nothing {time : Option ℤ} (hbreaker : ∀ b, r.1.breaker b = gw.breaker b)
      (howed : ∀ w, (r.1.workers w).owed = (gw.workers w).owed) (hacts : ∀ a ∈ r.2, a.caller = none) :
      BreakerCall gw r time
  | admitted {now : ℤ} (w : ℕ) (b : BackendRef) (cb : CircuitBreaker) (hout : (gw.workers w).owed = none)
      (hcb : gw.breaker b = some cb) (hallow : (cb.allowRequest now).1 = true)
      (hbreaker : ∀ b', r.1.breaker b' = if b' = b then some (cb.allowRequest now).2 else gw.breaker b')
      (howed : ∀ u, (r.1.workers u).owed = if u = w then some b else (gw.workers u).owed)
      (hacts : r.2 = [.admitted w b]) : BreakerCall gw r (some now)
  | refused {now : ℤ} (w : ℕ) (b : BackendRef) (hout : (gw.workers w).owed = none)
      (hallow : ∀ cb, gw.breaker b = some cb → (cb.allowRequest now).1 = false)
      (hbreaker : ∀ b', r.1.breaker b' = if b' = b then (gw.breaker b').map fun cb => (cb.allowRequest now).2
        else gw.breaker b')
      (howed : ∀ u, (r.1.workers u).owed = (gw.workers u).owed) (hacts : ∀ a ∈ r.2, a.caller = none) :
      BreakerCall gw r (some now)
  | reported {now : ℤ} (w : ℕ) (b : BackendRef) (ok : Bool) (hin : (gw.workers w).owed = some b)
      (hbreaker : ∀ b', r.1.breaker b' = if b' = b then (gw.breaker b').map fun cb => cb.report ok now
        else gw.breaker b')
      (howed : ∀ u, (r.1.workers u).owed = if u = w then none else (gw.workers u).owed)
      {acts : List Act} (hlog : r.2 = .reported w b ok :: acts) (hacts : ∀ a ∈ acts, a.caller = none) :
      BreakerCall gw r (some now)

section Moves

variable (gw : Gateway) {gw' : Gateway} {w : ℕ} {next : Stage × List Act}

theorem owed_goTo (hworkers : gw'.workers = gw.workers) (u : ℕ) :
    ((gw'.goTo w next).1.workers u).owed = if u = w then next.1.owed else (gw.workers u).owed := by
  simp only [Gateway.goTo, hworkers, Function.update_apply]
  split <;> rfl

/-- The worker moves on, and owes the same. -/
theorem BreakerCall.goOn {gw : Gateway} {time : Option ℤ} (hworkers : gw'.workers = gw.workers)
    (hbreaker : ∀ b, gw'.breaker b = gw.breaker b) (howed : next.1.owed = (gw.workers w).owed)
    (hacts : ∀ a ∈ next.2, a.caller = none) : BreakerCall gw (gw'.goTo w next) time := by
  refine .nothing hbreaker (fun u => ?_) hacts
  rw [owed_goTo gw hworkers]
  split
  · rename_i hu
    rw [howed, hu]
  · rfl

end Moves

theorem breakerCall_step (gw : Gateway) (w : ℕ) (input : Input) :
    BreakerCall gw (gw.step w input) (some input.now) := by
  cases hstage : gw.workers w with
  | idle =>
    simp only [Gateway.step, hstage]
    exact .nothing (fun _ => rfl) (fun _ => rfl) (by simp)
  | picking call scan =>
    have hnext := staysOutside_scanStep (gw.groups call.group) w call scan
    simp only [Gateway.step, hstage]
    refine .goOn rfl (fun b => ?_) (by rw [hnext.stage.owed, hstage]; rfl) hnext.caller
    rw [Gateway.breaker, gw.backend_scan, Gateway.breaker]
  | picked call i =>
    have hbreaker := gw.breaker_modify call.group i
      (fun b => { b with circuitBreaker := (b.circuitBreaker.allowRequest input.now).2 })
      (fun cb => (cb.allowRequest input.now).2) (fun _ => rfl)
    have hout : (gw.workers w).owed = none := by rw [hstage]; rfl
    simp only [Gateway.step, hstage]
    split
    · rename_i hadmits
      rw [Gateway.admits_eq, Option.any_eq_true] at hadmits
      obtain ⟨cb, hcb, hallow⟩ := hadmits
      refine .admitted w ⟨call.group, i⟩ cb hout hcb hallow (fun b => ?_) (owed_goTo gw rfl) rfl
      refine (hbreaker b).trans ?_
      split
      · rename_i hb
        rw [hb, hcb, Option.map_some]
      · rfl
    · rename_i hadmits
      rw [Gateway.admits_eq, Option.any_eq_true] at hadmits
      have hnext := staysOutside_startAttempt (gw.modify call.group i fun b =>
        { b with circuitBreaker := (b.circuitBreaker.allowRequest input.now).2 }).groups w call.next
      refine .refused w ⟨call.group, i⟩ hout (fun cb hcb => ?_) hbreaker (fun u => ?_) hnext.caller
      · exact Bool.eq_false_of_not_eq_true fun hallow => hadmits ⟨cb, hcb, hallow⟩
      · refine (owed_goTo gw rfl u).trans ?_
        rw [hnext.stage.owed]
        split
        · rename_i hu
          rw [hu, hout]
        · rfl
  | admitted call i =>
    simp only [Gateway.step, hstage]
    exact .goOn rfl (gw.breaker_modify_of_same call.group i _ fun _ => rfl) (by rw [hstage]; rfl) (by simp)
  | acquiring call i =>
    simp only [Gateway.step, hstage]
    split
    · exact .goOn rfl (fun _ => rfl) (by rw [hstage]; rfl) (by simp)
    · exact .goOn rfl (fun _ => rfl) (by rw [hstage]; rfl) (by simp)
  | dialing call i =>
    simp only [Gateway.step, hstage]
    refine .goOn rfl (fun _ => rfl) (by rw [hstage]; rfl) fun a ha => ?_
    split at ha
    · obtain rfl := List.mem_singleton.mp ha
      rfl
    · simp at ha
  | exchanging call i fd =>
    simp only [Gateway.step, hstage]
    split
    · exact .goOn rfl (fun _ => rfl) (by rw [hstage]; rfl) (by simp [Act.caller])
    · exact .goOn rfl (fun _ => rfl) (by rw [hstage]; rfl) (by simp)
  | exchanged call i fd outcome =>
    simp only [Gateway.step, hstage]
    exact .goOn rfl (gw.breaker_modify_of_same call.group i _ fun _ => rfl) (by rw [hstage]; rfl) (by simp)
  | settling call i fd outcome =>
    cases outcome with
    | some result =>
      simp only [Gateway.step, hstage]
      exact .reported w ⟨call.group, i⟩ true (by rw [hstage]; rfl)
        (gw.breaker_modify call.group i _ _ fun _ => rfl) (owed_goTo gw rfl) rfl (by simp)
    | none =>
      simp only [Gateway.step, hstage]
      exact .goOn rfl (fun _ => rfl) (by rw [hstage]; rfl) (by simp [Act.caller])
  | succeeded call i fd resp reusable =>
    have hnext := staysOutside_endAttempt gw w call (some resp)
    simp only [Gateway.step, hstage]
    refine .goOn rfl (fun _ => rfl) (by rw [hnext.stage.owed, hstage]; rfl) fun a ha => ?_
    rcases List.mem_append.mp ha with ha | ha
    · obtain ⟨fd, -, rfl⟩ := List.mem_map.mp ha
      rfl
    · exact hnext.caller a ha
  | failed call i =>
    have hnext := staysOutside_endAttempt (gw.modify call.group i fun b =>
      { b with circuitBreaker := b.circuitBreaker.onFailure input.now }) w call none
    simp only [Gateway.step, hstage]
    refine .reported w ⟨call.group, i⟩ false (by rw [hstage]; rfl)
      (gw.breaker_modify call.group i _ _ fun _ => rfl) (fun u => ?_) rfl hnext.caller
    refine (owed_goTo gw rfl u).trans ?_
    rw [hnext.stage.owed]

theorem breakerCall_move (gw : Gateway) (e : Move) : BreakerCall gw (gw.move e) e.time := by
  cases e with
  | call w group attempts =>
    rw [Gateway.move]
    split
    · rename_i hstage
      have hnext := staysOutside_startAttempt gw.groups w { group, attempts }
      exact .goOn rfl (fun _ => rfl) (by rw [hnext.stage.owed, hstage]; rfl) hnext.caller
    · exact .nothing (fun _ => rfl) (fun _ => rfl) (by simp)
  | step w input => exact breakerCall_step gw w input
  | health group i healthy =>
    exact .nothing (gw.breaker_modify_of_same group i _ fun _ => rfl) (fun _ => rfl) (by simp [Gateway.move])
  | closeAll keys =>
    exact .nothing (fun _ => rfl) (fun _ => rfl) (by simp [Gateway.move, Act.caller])

/-! ## The abstract breaker -/

/-- The breaker of a backend and the workers that owe it a report, as a state that the abstract system reaches. -/
def Follows (start : System) (b : BackendRef) (gw : Gateway) : Prop :=
  ∃ s, Relation.ReflTransGen System.Step start s ∧ gw.breaker b = some s.breaker ∧
    ∀ w, w ∈ s.outstanding ↔ (gw.workers w).owed = some b

/-- **A move is a step of the abstract system**, or none. -/
theorem Follows.call {start : System} {b : BackendRef} {gw : Gateway} {r : Gateway × List Act} {time : Option ℤ}
    (h : Follows start b gw) (hcall : BreakerCall gw r time) : Follows start b r.1 := by
  obtain ⟨s, hreach, hbreaker, howed⟩ := h
  cases hcall with
  | nothing hbreaker' howed' _ =>
    exact ⟨s, hreach, (hbreaker' b).trans hbreaker, fun w => by rw [howed w, howed' w]⟩
  | @admitted now w b' cb hout hcb hallow hbreaker' howed' _ =>
    have hnot : w ∉ s.outstanding := by simp [howed, hout]
    by_cases hb : b = b'
    · subst hb
      obtain rfl : s.breaker = cb := Option.some.inj (hbreaker.symm.trans hcb)
      refine ⟨_, hreach.tail (@System.Step.admitted s w now _ hnot (Prod.ext hallow rfl)), ?_, fun u => ?_⟩
      · rw [hbreaker', if_pos rfl]
      · rw [howed', Finset.mem_insert, howed]
        by_cases hu : u = w
        · simp [hu]
        · simp [hu]
    · refine ⟨s, hreach, by rw [hbreaker', if_neg hb, hbreaker], fun u => ?_⟩
      rw [howed', howed]
      by_cases hu : u = w
      · simp [hu, hout, Ne.symm hb]
      · simp [hu]
  | @refused now w b' hout hallow hbreaker' howed' _ =>
    have hnot : w ∉ s.outstanding := by simp [howed, hout]
    by_cases hb : b = b'
    · subst hb
      refine ⟨_, hreach.tail (@System.Step.refused s w now _ hnot (Prod.ext (hallow _ hbreaker) rfl)), ?_, fun u => ?_⟩
      · rw [hbreaker', if_pos rfl, hbreaker, Option.map_some]
      · rw [howed', howed]
    · exact ⟨s, hreach, by rw [hbreaker', if_neg hb, hbreaker], fun u => by rw [howed', howed]⟩
  | @reported now w b' ok hin hbreaker' howed' _ _ _ =>
    by_cases hb : b = b'
    · subst hb
      refine ⟨_, hreach.tail (.reported ok now ((howed w).mpr hin)), ?_, fun u => ?_⟩
      · rw [hbreaker', if_pos rfl, hbreaker, Option.map_some]
      · rw [howed', Finset.mem_erase, howed]
        by_cases hu : u = w
        · simp [hu]
        · simp [hu]
    · refine ⟨s, hreach, by rw [hbreaker', if_neg hb, hbreaker], fun u => ?_⟩
      rw [howed', howed]
      by_cases hu : u = w
      · simp [hu, hin, Ne.symm hb]
      · simp [hu]

/-- **The breakers of a gateway are those of the abstract system.** In every run, with any number of workers in any
order: a breaker and the workers that it has admitted and that have not reported are in a state that the abstract
system reaches. So a half-open breaker has a worker that will report to it, and when no worker is at work, no breaker
is half-open. -/
theorem breakers_refine_system (groups : ℕ → LoadBalancer) (maxIdlePerBackend : ℕ) {b : BackendRef}
    {failureThreshold resetTimeout : ℤ}
    (hstart : (Gateway.start groups maxIdlePerBackend).breaker b = some { failureThreshold, resetTimeout })
    (es : List Move) :
    let r := Reactive.run Gateway.move (Gateway.start groups maxIdlePerBackend) es
    ∃ s : System, Relation.ReflTransGen System.Step (System.initial failureThreshold resetTimeout) s ∧
      r.1.breaker b = some s.breaker ∧ (∀ w, w ∈ s.outstanding ↔ (r.1.workers w).owed = some b) ∧
      (s.breaker.state = .HalfOpen → ∃ w, (r.1.workers w).owed = some b) ∧
      ((∀ w, r.1.workers w = .idle) → s.breaker.state ≠ .HalfOpen) := by
  intro r
  have hfollows : Follows (System.initial failureThreshold resetTimeout) b r.1 :=
    Reactive.run_invariant (I := fun gw _ => Follows _ b gw)
      ⟨_, .refl, hstart, fun w => by simp [System.initial, Gateway.start, Stage.owed]⟩
      (fun gw _ e h => h.call (breakerCall_move gw e)) es
  obtain ⟨s, hreach, hbreaker, howed⟩ := hfollows
  have hhalf : s.breaker.state = .HalfOpen → ∃ w, (r.1.workers w).owed = some b := fun hstate => by
    obtain ⟨w, hw⟩ := ((System.inv_of_reachable hreach).2 hstate).2
    exact ⟨w, (howed w).mp hw⟩
  refine ⟨s, hreach, hbreaker, howed, hhalf, fun hidle hstate => ?_⟩
  obtain ⟨w, hw⟩ := hhalf hstate
  rw [hidle w] at hw
  cases hw

/-- A worker that cannot connect to the only backend. -/
def oneFailed (w : ℕ) (now : ℤ) : List Move := .call w 0 1 :: List.replicate 10 (.step w { now })

/-- A worker that has been admitted by the breaker after the reset timeout. -/
def oneOnTrial : List Move := oneFailed 0 0 ++ .call 1 0 1 :: List.replicate 3 (.step 1 { now := 5 })

theorem breakers_refine_system_oneOnTrial :
    let r := Reactive.run Gateway.move (Gateway.start leastConnected 1) oneOnTrial
    (r.1.breaker ⟨0, 0⟩).map (·.state) = some .HalfOpen ∧ ∃ w, (r.1.workers w).owed = some ⟨0, 0⟩ := by
  obtain ⟨s, -, hbreaker, -, hhalf, -⟩ := breakers_refine_system leastConnected 1 (b := ⟨0, 0⟩) rfl oneOnTrial
  have hstate : ((Reactive.run Gateway.move (Gateway.start leastConnected 1) oneOnTrial).1.breaker ⟨0, 0⟩).map
      (·.state) = some .HalfOpen := by decide
  refine ⟨hstate, hhalf ?_⟩
  rw [hbreaker, Option.map_some] at hstate
  exact Option.some.inj hstate

/-! ## Open breakers -/

/-- The breaker of this backend admits a request. -/
def Act.isAdmitted (b : BackendRef) : Act → Bool
  | .admitted _ b' => b' = b
  | _ => false

/-- At time `now`, `k` requests after the breaker of a backend has opened at time `opened` for the first time: the
last one is out, or has been answered with a failure. -/
def Spaced (b : BackendRef) (opened resetTimeout : ℤ) (k : ℕ) (now : ℤ) (gw : Gateway) : Prop :=
  ∃ cb, gw.breaker b = some cb ∧ cb.halfOpenTrialRequests = 1 ∧ cb.resetTimeout = resetTimeout ∧
    (cb.state = .Open ∧ k * resetTimeout ≤ cb.openedAt - opened ∧ cb.openedAt ≤ now ∨
      cb.state = .HalfOpen ∧ cb.halfOpenInFlight = 1 ∧ k * resetTimeout ≤ now - opened)

namespace Spaced

variable {b : BackendRef} {opened resetTimeout now : ℤ} {k : ℕ} {gw : Gateway} {r : Gateway × List Act}
  {time : Option ℤ}

theorem le (h : Spaced b opened resetTimeout k now gw) : k * resetTimeout ≤ now - opened := by
  obtain ⟨cb, -, -, -, ⟨-, hk, hle⟩ | ⟨-, -, hk⟩⟩ := h
  · omega
  · exact hk

theorem mono (h : Spaced b opened resetTimeout k now gw) {later : ℤ} (hle : now ≤ later)
    {gw' : Gateway} (hsame : gw'.breaker b = gw.breaker b) : Spaced b opened resetTimeout k later gw' := by
  obtain ⟨cb, hcb, htrials, hreset, ⟨hstate, hk, hat⟩ | ⟨hstate, hone, hk⟩⟩ := h
  · exact ⟨cb, hsame.trans hcb, htrials, hreset, .inl ⟨hstate, hk, hat.trans hle⟩⟩
  · exact ⟨cb, hsame.trans hcb, htrials, hreset, .inr ⟨hstate, hone, by omega⟩⟩

/-- A request is admitted: the breaker has been open for long enough, and is half-open now. -/
theorem admitted (h : Spaced b opened resetTimeout k now gw) {later : ℤ} {cb : CircuitBreaker}
    (hcb : gw.breaker b = some cb) (hallow : (cb.allowRequest later).1 = true) {gw' : Gateway}
    (hcb' : gw'.breaker b = some (cb.allowRequest later).2) :
    Spaced b opened resetTimeout (k + 1) later gw' := by
  obtain ⟨cb', hcb'', htrials, hreset, hstate⟩ := h
  obtain rfl : cb = cb' := Option.some.inj (hcb.symm.trans hcb'')
  refine ⟨_, hcb', ?_⟩
  rcases cb.allowRequest_cases later with ⟨hclosed, heq⟩ | ⟨_, _, heq⟩ | ⟨_, _, _, heq⟩ | ⟨hopen, hwait, _, heq⟩ |
    ⟨_, _, heq⟩ | ⟨hhalf, hroom, heq⟩
  · simp [hclosed] at hstate
  · simp [heq] at hallow
  · simp [heq] at hallow
  · rw [heq]
    refine ⟨htrials, hreset, .inr ⟨rfl, rfl, ?_⟩⟩
    obtain ⟨-, hk, -⟩ | ⟨hhalf, -⟩ := hstate
    · rw [Nat.cast_add, Nat.cast_one, add_mul, one_mul]
      omega
    · simp [hopen] at hhalf
  · simp [heq] at hallow
  · obtain ⟨hopen, -⟩ | ⟨-, hone, -⟩ := hstate
    · simp [hhalf] at hopen
    · omega

/-- A request is refused. -/
theorem refuse (h : Spaced b opened resetTimeout k now gw) {later : ℤ} (hle : now ≤ later) {cb : CircuitBreaker}
    (hcb : gw.breaker b = some cb) (hallow : (cb.allowRequest later).1 = false) {gw' : Gateway}
    (hcb' : gw'.breaker b = some (cb.allowRequest later).2) : Spaced b opened resetTimeout k later gw' := by
  have hsame : (cb.allowRequest later).2 = cb := by
    obtain ⟨cb', hcb'', htrials, -⟩ := h
    obtain rfl : cb = cb' := Option.some.inj (hcb.symm.trans hcb'')
    rcases cb.allowRequest_cases later with ⟨_, heq⟩ | ⟨_, _, heq⟩ | ⟨_, _, hnone, heq⟩ | ⟨_, _, _, heq⟩ |
      ⟨_, _, heq⟩ | ⟨_, _, heq⟩
    · rw [heq]
    · rw [heq]
    · omega
    · simp [heq] at hallow
    · rw [heq]
    · simp [heq] at hallow
  exact h.mono hle (by rw [hcb', hsame, hcb])

/-- A failure is reported, of the last request or of an older one. -/
theorem fail (h : Spaced b opened resetTimeout k now gw) {later : ℤ} (hle : now ≤ later) {cb : CircuitBreaker}
    (hcb : gw.breaker b = some cb) {gw' : Gateway} (hcb' : gw'.breaker b = some (cb.onFailure later)) :
    Spaced b opened resetTimeout k later gw' := by
  have hk := h.le
  obtain ⟨cb', hcb'', htrials, hreset, hstate⟩ := h
  obtain rfl : cb = cb' := Option.some.inj (hcb.symm.trans hcb'')
  refine ⟨_, hcb', ?_⟩
  by_cases htrips : cb.Trips
  · rw [CircuitBreaker.onFailure_of_trips htrips]
    exact ⟨htrials, hreset, .inl ⟨rfl, by simp only [CircuitBreaker.trip]; omega, le_rfl⟩⟩
  · rw [CircuitBreaker.onFailure_of_not_trips htrips]
    obtain ⟨hopen, hk, hat⟩ | ⟨hhalf, -⟩ := hstate
    · exact ⟨htrials, hreset, .inl ⟨hopen, hk, hat.trans hle⟩⟩
    · exact absurd (.inl hhalf) htrips

/-- **A move keeps the requests apart.** -/
theorem call (h : Spaced b opened resetTimeout k now gw) (hcall : BreakerCall gw r time)
    (htime : ∀ later, time = some later → now ≤ later) (hfail : ∀ w, .reported w b true ∉ r.2) :
    Spaced b opened resetTimeout (k + r.2.countP (Act.isAdmitted b)) (time.getD now) r.1 := by
  have hnone : ∀ {acts : List Act}, (∀ a ∈ acts, a.caller = none) → acts.countP (Act.isAdmitted b) = 0 := by
    intro acts hacts
    rw [List.countP_eq_zero]
    intro a ha
    have hcaller := hacts a ha
    cases a <;> simp_all [Act.caller, Act.isAdmitted]
  cases hcall with
  | nothing hbreaker _ hacts =>
    rw [hnone hacts, add_zero]
    cases time with
    | none => exact h.mono le_rfl (hbreaker b)
    | some later => exact h.mono (htime later rfl) (hbreaker b)
  | @admitted later w b' cb hout hcb hallow hbreaker _ hacts =>
    rw [hacts, Option.getD_some]
    by_cases hb : b = b'
    · subst hb
      rw [show [Act.admitted w b].countP (Act.isAdmitted b) = 1 by simp [Act.isAdmitted]]
      exact h.admitted hcb hallow (by rw [hbreaker, if_pos rfl])
    · rw [show [Act.admitted w b'].countP (Act.isAdmitted b) = 0 by simp [Act.isAdmitted, Ne.symm hb], add_zero]
      exact h.mono (htime later rfl) (by rw [hbreaker, if_neg hb])
  | @refused later w b' hout hallow hbreaker _ hacts =>
    rw [hnone hacts, add_zero, Option.getD_some]
    by_cases hb : b = b'
    · subst hb
      obtain ⟨cb, hcb, -⟩ := id h
      exact h.refuse (htime later rfl) hcb (hallow cb hcb) (by rw [hbreaker, if_pos rfl, hcb, Option.map_some])
    · exact h.mono (htime later rfl) (by rw [hbreaker, if_neg hb])
  | @reported later w b' ok hin hbreaker _ acts hlog hacts =>
    rw [hlog, List.countP_cons_of_neg (by simp [Act.isAdmitted]), hnone hacts, add_zero, Option.getD_some]
    by_cases hb : b = b'
    · subst hb
      obtain ⟨cb, hcb, -⟩ := id h
      cases ok with
      | true => exact absurd (by rw [hlog]; exact List.mem_cons_self) (hfail w)
      | false => exact h.fail (htime later rfl) hcb (by rw [hbreaker, if_pos rfl, hcb]; rfl)
    · exact h.mono (htime later rfl) (by rw [hbreaker, if_neg hb])

/-- Whole runs. -/
theorem run (h : Spaced b opened resetTimeout k now gw) {es : List Move} {t : ℤ}
    (hclock : (now :: (es.filterMap Move.time ++ [t])).IsChain (· ≤ ·))
    (hfail : ∀ w, .reported w b true ∉ (Reactive.run Gateway.move gw es).2) :
    Spaced b opened resetTimeout (k + (Reactive.run Gateway.move gw es).2.countP (Act.isAdmitted b)) t
      (Reactive.run Gateway.move gw es).1 := by
  induction es generalizing k now gw with
  | nil => exact h.mono (by simpa using hclock) rfl
  | cons e es ih =>
    rw [Reactive.run_cons] at hfail ⊢
    simp only [List.mem_append, not_or] at hfail
    have hlater : ∀ later, e.time = some later → now ≤ later := by
      intro later htime
      rw [List.filterMap_cons_some htime, List.cons_append, List.isChain_cons_cons] at hclock
      exact hclock.1
    have hrest : (e.time.getD now :: (es.filterMap Move.time ++ [t])).IsChain (· ≤ ·) := by
      cases htime : e.time with
      | none => rwa [List.filterMap_cons_none htime] at hclock
      | some later =>
        rw [List.filterMap_cons_some htime, List.cons_append, List.isChain_cons_cons] at hclock
        exact hclock.2
    rw [List.countP_append, ← add_assoc]
    exact ih (h.call (breakerCall_move gw e) hlater fun w => (hfail w).1) hrest fun w => (hfail w).2

end Spaced

/-- **A failing backend is left alone.** From any state in which the breaker of a backend is open, with any number of
workers in any order and clock readings that do not decrease: as long as no request to the backend succeeds, there
are at most as many requests to it as reset timeouts have passed since the breaker opened. -/
theorem open_backend_left_alone {gw : Gateway} {b : BackendRef} {cb : CircuitBreaker}
    (hcb : gw.breaker b = some cb) (hopen : cb.state = .Open) (htrials : cb.halfOpenTrialRequests = 1)
    {es : List Move} {t : ℤ} (hclock : (cb.openedAt :: (es.filterMap Move.time ++ [t])).IsChain (· ≤ ·))
    (hfail : ∀ w, .reported w b true ∉ (Reactive.run Gateway.move gw es).2) :
    ((Reactive.run Gateway.move gw es).2.countP (Act.isAdmitted b) : ℤ) * cb.resetTimeout ≤ t - cb.openedAt := by
  have hstart : Spaced b cb.openedAt cb.resetTimeout 0 cb.openedAt gw :=
    ⟨cb, hcb, htrials, rfl, .inl ⟨hopen, by simp, le_rfl⟩⟩
  simpa using (hstart.run hclock hfail).le

theorem open_backend_left_alone_failsAgain :
    let gw := (Reactive.run Gateway.move (Gateway.start leastConnected 1) (oneFailed 0 0)).1
    let log := (Reactive.run Gateway.move gw (oneFailed 1 5 ++ oneFailed 0 5)).2
    log.countP (Act.isAdmitted ⟨0, 0⟩) = 1 ∧ (log.countP (Act.isAdmitted ⟨0, 0⟩) : ℤ) * 1 ≤ 5 - 0 := by
  intro gw log
  have hlog : log = [.chose 1 0 (some 0), .admitted 1 ⟨0, 0⟩, .reported 1 ⟨0, 0⟩ false, .chose 0 0 (some 0)] := by
    decide
  have hcb : gw.breaker ⟨0, 0⟩ = some { failureThreshold := 1, resetTimeout := 1, state := .Open } := by
    decide
  have hclock : (0 :: ((oneFailed 1 5 ++ oneFailed 0 5).filterMap Move.time ++ [5])).IsChain (· ≤ ·) := by
    decide
  have hfail : ∀ w, .reported w ⟨0, 0⟩ true ∉ log := by
    rw [hlog]
    simp
  exact ⟨by rw [hlog]; rfl, open_backend_left_alone hcb rfl rfl hclock hfail⟩

end ApiGateway.Core
