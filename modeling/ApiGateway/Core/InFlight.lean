import ApiGateway.Common.Interleaving
import ApiGateway.Core.Undisturbed

/-!
# Attempts in flight

What the workers in `forwardWithResilience` owe to the counters and breakers of the backends. A worker that
has passed `fetch_add` and not yet `fetch_sub` is counted by its backend (`Stage.counted`), and a worker that
was admitted by a breaker owes it a report (`Stage.owed`). `Accounts` says that each move of the gateway
settles both, and `Books` is what follows for every run.

A pick by least connections that is not disturbed sees the counters of one moment, and so chooses by the
number of attempts in flight.

Reference: `Gateway::forwardWithResilience` in `src/core/Gateway.cpp`,
`LoadBalancer::pickLeastConnections` in `include/routing/LoadBalancer.hpp`.
-/

namespace ApiGateway.Core

open Str Http Routing Resilience Network Interleaving

/-! ## Accounts -/

/-- The backend that counts the worker. -/
def Stage.counted : Stage → Option BackendRef
  | .acquiring call i => some ⟨call.group, i⟩
  | .dialing call i => some ⟨call.group, i⟩
  | .exchanging call i _ => some ⟨call.group, i⟩
  | .exchanged call i _ _ => some ⟨call.group, i⟩
  | _ => none

/-- The backend whose breaker waits for the worker's report. -/
def Stage.owed : Stage → Option BackendRef
  | .admitted call i => some ⟨call.group, i⟩
  | .acquiring call i => some ⟨call.group, i⟩
  | .dialing call i => some ⟨call.group, i⟩
  | .exchanging call i _ => some ⟨call.group, i⟩
  | .exchanged call i _ _ => some ⟨call.group, i⟩
  | .settling call i _ _ => some ⟨call.group, i⟩
  | .failed call i => some ⟨call.group, i⟩
  | _ => none

theorem Stage.Outside.counted {stage : Stage} (h : stage.Outside) : stage.counted = none := by
  cases stage <;> first | rfl | exact h.elim

theorem Stage.Outside.owed {stage : Stage} (h : stage.Outside) : stage.owed = none := by
  cases stage <;> first | rfl | exact h.elim

/-- The worker that has called a breaker. -/
def Act.caller : Act → Option ℕ
  | .admitted w _ => some w
  | .reported w _ _ => some w
  | _ => none

/-- What a worker does to a breaker while it owes something before and after. -/
inductive Entry (w : ℕ) : Option BackendRef → Option BackendRef → List Act → Prop
  | nothing {owed : Option BackendRef} {acts : List Act} (hacts : ∀ a ∈ acts, a.caller = none) :
    Entry w owed owed acts
  | admitted (b : BackendRef) : Entry w none (some b) [.admitted w b]
  | reported (b : BackendRef) (ok : Bool) {acts : List Act} (hacts : ∀ a ∈ acts, a.caller = none) :
    Entry w (some b) none (.reported w b ok :: acts)

/-- **A move of the gateway**: one worker goes to a stage at most, the backend that counts it then has one
more connection, and the one that counted it before one less. -/
structure Accounts (gw : Gateway) (w : ℕ) (stage : Stage) (r : Gateway × List Act) : Prop where
  workers : r.1.workers = Function.update gw.workers w stage
  connections : ∀ b be', r.1.backend b = some be' → ∃ be, gw.backend b = some be ∧
    be'.activeConnections = be.activeConnections + (if stage.counted = some b then 1 else 0)
      - if (gw.workers w).counted = some b then 1 else 0
  entry : Entry w (gw.workers w).owed stage.owed r.2

theorem StaysOutside.caller {w : ℕ} {next : Stage × List Act} (h : StaysOutside w next) :
    ∀ a ∈ next.2, a.caller = none := by
  intro a ha
  obtain ⟨group, result, rfl⟩ := h.acts a ha
  rfl

/-- A backend is changed. -/
theorem connections_modify {gw : Gateway} {group i : ℕ} {f : Backend → Backend} (n : ℤ)
    (hf : ∀ b, (f b).activeConnections = b.activeConnections + n) {b : BackendRef} {be' : Backend}
    (h : (gw.modify group i f).backend b = some be') :
    ∃ be, gw.backend b = some be ∧
      be'.activeConnections = be.activeConnections + if b = ⟨group, i⟩ then n else 0 := by
  rw [Gateway.backend_modify] at h
  split at h
  · rename_i heq
    obtain ⟨be, hbe, rfl⟩ := Option.map_eq_some_iff.mp h
    exact ⟨be, hbe, by rw [hf, if_pos heq]⟩
  · rename_i hne
    exact ⟨be', h, by rw [if_neg hne, add_zero]⟩

namespace Accounts

variable {gw gw' : Gateway} {w : ℕ} {stage : Stage} {next : Stage × List Act}

/-- The worker moves on and the connections stay. -/
theorem goOn (hstage : gw.workers w = stage)
    (hworkers : gw'.workers = Function.update gw.workers w next.1)
    (hconnections : ∀ b be', gw'.backend b = some be' → ∃ be, gw.backend b = some be ∧
      be'.activeConnections = be.activeConnections)
    (hcounted : next.1.counted = stage.counted) (hentry : Entry w stage.owed next.1.owed next.2) :
    Accounts gw w next.1 (gw', next.2) := by
  subst hstage
  refine ⟨hworkers, fun b be' hbe' => ?_, hentry⟩
  obtain ⟨be, hbe, hsame⟩ := hconnections b be' hbe'
  refine ⟨be, hbe, ?_⟩
  rw [hcounted, hsame, add_sub_cancel_right]

theorem modify (hstage : gw.workers w = stage) {group i : ℕ} {f : Backend → Backend}
    (hf : ∀ b, (f b).activeConnections = b.activeConnections)
    (hcounted : next.1.counted = stage.counted) (hentry : Entry w stage.owed next.1.owed next.2) :
    Accounts gw w next.1 ((gw.modify group i f).goTo w next) := by
  refine goOn hstage rfl (fun b be' hbe' => ?_) hcounted hentry
  obtain ⟨be, hbe, hsame⟩ := connections_modify 0 (fun b => (hf b).trans (add_zero _).symm) hbe'
  exact ⟨be, hbe, by rw [hsame, ite_self, add_zero]⟩

theorem stay (hstage : gw.workers w = stage) {pool : ConnectionPool}
    (hcounted : next.1.counted = stage.counted) (hentry : Entry w stage.owed next.1.owed next.2) :
    Accounts gw w next.1 (Gateway.goTo { gw with pool } w next) :=
  goOn hstage rfl (fun _ be' hbe' => ⟨be', hbe', rfl⟩) hcounted hentry

/-- No worker moves. -/
theorem same (gw : Gateway) (r : Gateway × List Act) (hworkers : r.1.workers = gw.workers) (w : ℕ)
    (hconnections : ∀ b be', r.1.backend b = some be' → ∃ be, gw.backend b = some be ∧
      be'.activeConnections = be.activeConnections)
    (hacts : ∀ a ∈ r.2, a.caller = none) : Accounts gw w (gw.workers w) r :=
  @goOn gw r.1 w _ (gw.workers w, r.2) rfl (hworkers.trans (Function.update_eq_self w _).symm)
    hconnections rfl (.nothing hacts)

end Accounts

/-- **A worker's step.** -/
theorem accounts_step (gw : Gateway) (w : ℕ) (input : Input) :
    ∃ stage, Accounts gw w stage (gw.step w input) := by
  -- `fetch_add` and `fetch_sub` are the steps into and out of the stages that are counted
  cases hstage : gw.workers w with
  | idle =>
    simp only [Gateway.step, hstage]
    exact ⟨_, Accounts.same gw (gw, []) rfl w (fun _ be' hbe' => ⟨be', hbe', rfl⟩) (by simp)⟩
  | picking call scan =>
    have hnext := staysOutside_scanStep (gw.groups call.group) w call scan
    simp only [Gateway.step, hstage]
    refine ⟨_, Accounts.goOn hstage rfl ?_ hnext.stage.counted ?_⟩
    · exact fun b be' hbe' => ⟨be', (gw.backend_scan w call scan b).symm.trans hbe', rfl⟩
    · exact hnext.stage.owed ▸ .nothing hnext.caller
  | picked call i =>
    simp only [Gateway.step, hstage]
    split
    · exact ⟨_, Accounts.modify hstage (fun _ => rfl) rfl (.admitted ⟨call.group, i⟩)⟩
    · have hnext := staysOutside_startAttempt (gw.modify call.group i fun b =>
        { b with circuitBreaker := (b.circuitBreaker.allowRequest input.now).2 }).groups w call.next
      exact ⟨_, Accounts.modify hstage (fun _ => rfl) hnext.stage.counted
        (hnext.stage.owed ▸ .nothing hnext.caller)⟩
  | admitted call i =>
    refine ⟨.acquiring call i, ?_⟩
    simp only [Gateway.step, hstage]
    refine ⟨rfl, fun b be' hbe' => ?_, hstage ▸ .nothing (by simp [Gateway.goTo])⟩
    obtain ⟨be, hbe, hmore⟩ := connections_modify 1 (fun _ => rfl) hbe'
    exact ⟨be, hbe, by simp [hmore, hstage, Stage.counted, eq_comm]⟩
  | acquiring call i =>
    simp only [Gateway.step, hstage]
    split
    · exact ⟨_, Accounts.stay hstage rfl (.nothing (by simp))⟩
    · exact ⟨_, Accounts.stay hstage rfl (.nothing (by simp))⟩
  | dialing call i =>
    simp only [Gateway.step, hstage]
    refine ⟨_, Accounts.stay hstage rfl (.nothing fun a ha => ?_)⟩
    split at ha
    · obtain rfl := List.mem_singleton.mp ha
      rfl
    · simp at ha
  | exchanging call i fd =>
    simp only [Gateway.step, hstage]
    split
    · exact ⟨_, Accounts.stay hstage rfl (.nothing (by simp [Act.caller]))⟩
    · exact ⟨_, Accounts.stay hstage rfl (.nothing (by simp))⟩
  | exchanged call i fd outcome =>
    refine ⟨.settling call i fd outcome, ?_⟩
    simp only [Gateway.step, hstage]
    refine ⟨rfl, fun b be' hbe' => ?_, hstage ▸ .nothing (by simp [Gateway.goTo])⟩
    obtain ⟨be, hbe, hless⟩ := connections_modify (-1) (fun _ => rfl) hbe'
    refine ⟨be, hbe, ?_⟩
    simp only [hless, hstage, Stage.counted, Option.some.injEq, eq_comm (a := b)]
    split <;> simp [sub_eq_add_neg]
  | settling call i fd outcome =>
    cases outcome with
    | some result =>
      simp only [Gateway.step, hstage]
      exact ⟨_, Accounts.modify hstage (fun _ => rfl) rfl (.reported ⟨call.group, i⟩ true (by simp))⟩
    | none =>
      simp only [Gateway.step, hstage]
      exact ⟨_, Accounts.stay hstage rfl (.nothing (by simp [Act.caller]))⟩
  | succeeded call i fd resp reusable =>
    have hnext := staysOutside_endAttempt gw w call (some resp)
    simp only [Gateway.step, hstage]
    refine ⟨_, Accounts.stay hstage hnext.stage.counted (hnext.stage.owed ▸ .nothing fun a ha => ?_)⟩
    rcases List.mem_append.mp ha with ha | ha
    · obtain ⟨fd, -, rfl⟩ := List.mem_map.mp ha
      rfl
    · exact hnext.caller a ha
  | failed call i =>
    have hnext := staysOutside_endAttempt (gw.modify call.group i fun b =>
      { b with circuitBreaker := b.circuitBreaker.onFailure input.now }) w call none
    simp only [Gateway.step, hstage]
    exact ⟨_, Accounts.modify hstage (fun _ => rfl) hnext.stage.counted
      (hnext.stage.owed ▸ .reported ⟨call.group, i⟩ false hnext.caller)⟩

theorem accounts_move (gw : Gateway) (e : Move) : ∃ w stage, Accounts gw w stage (gw.move e) := by
  cases e with
  | call w group attempts =>
    rw [Gateway.move]
    split
    · rename_i hstage
      have hnext := staysOutside_startAttempt gw.groups w { group, attempts }
      exact ⟨w, _, Accounts.stay hstage hnext.stage.counted (hnext.stage.owed ▸ .nothing hnext.caller)⟩
    · exact ⟨w, _, Accounts.same gw (gw, []) rfl w (fun _ be' hbe' => ⟨be', hbe', rfl⟩) (by simp)⟩
  | step w input => exact ⟨w, accounts_step gw w input⟩
  | health group i healthy =>
    refine ⟨0, _, Accounts.same gw (gw.move _) rfl 0 (fun b be' hbe' => ?_) (by simp [Gateway.move])⟩
    obtain ⟨be, hbe, hsame⟩ := connections_modify (f := fun b => { b with healthy }) 0
      (fun _ => (add_zero _).symm) hbe'
    exact ⟨be, hbe, by rw [hsame, ite_self, add_zero]⟩
  | closeAll keys =>
    exact ⟨0, _, Accounts.same gw (gw.move _) rfl 0 (fun _ be' hbe' => ⟨be', hbe', rfl⟩)
      (by simp [Gateway.move, Act.caller])⟩

/-! ## Books -/

/-- The workers between `fetch_add` and `fetch_sub` for a backend. -/
def Gateway.inFlight (gw : Gateway) (b : BackendRef) : Set ℕ :=
  holders (fun w => (gw.workers w).counted) b

/-- Admissions, each with its report. -/
def paired (w : ℕ) (calls : List (BackendRef × Bool)) : List Act :=
  calls.flatMap fun call => [.admitted w call.1, .reported w call.1 call.2]

/-- What a worker has told the breakers, in this order. -/
def Act.ledger (w : ℕ) (log : List Act) : List Act := log.filter (·.caller = some w)

/-- **The books are right.** A backend has as many connections as workers that are counted, and a worker has
reported all admissions but the one that it still owes. -/
structure Books (gw : Gateway) (log : List Act) : Prop where
  connections : ∀ b be, gw.backend b = some be →
    (gw.inFlight b).Finite ∧ be.activeConnections = (gw.inFlight b).ncard
  ledger : ∀ w, ∃ calls,
    Act.ledger w log = paired w calls ++ (gw.workers w).owed.toList.map (.admitted w)

theorem ledger_append (w : ℕ) (log acts : List Act) :
    Act.ledger w (log ++ acts) = Act.ledger w log ++ Act.ledger w acts := List.filter_append _ _

theorem ledger_eq_nil {acts : List Act} (hacts : ∀ a ∈ acts, a.caller = none) (w : ℕ) :
    Act.ledger w acts = [] := by
  rw [Act.ledger, List.filter_eq_nil_iff]
  intro a ha
  simp [hacts a ha]

/-- Nobody else's ledger is touched. -/
theorem Entry.ledger_of_ne {w u : ℕ} {before after : Option BackendRef} {acts : List Act}
    (h : Entry w before after acts) (hne : u ≠ w) : Act.ledger u acts = [] := by
  have hne' : w ≠ u := hne.symm
  cases h with
  | nothing hacts => exact ledger_eq_nil hacts u
  | admitted b => simp [Act.ledger, Act.caller, hne']
  | reported b ok hacts =>
    have hrest := ledger_eq_nil hacts u
    simpa [Act.ledger, Act.caller, hne'] using hrest

/-- The worker's own ledger goes on. -/
theorem Entry.ledger_self {w : ℕ} {before after : Option BackendRef} {acts : List Act}
    (h : Entry w before after acts) (calls : List (BackendRef × Bool)) :
    ∃ calls', paired w calls ++ before.toList.map (.admitted w) ++ Act.ledger w acts
      = paired w calls' ++ after.toList.map (.admitted w) := by
  cases h with
  | nothing hacts => exact ⟨calls, by rw [ledger_eq_nil hacts, List.append_nil]⟩
  | admitted b => exact ⟨calls, by simp [Act.ledger, Act.caller]⟩
  | reported b ok hacts =>
    refine ⟨calls ++ [(b, ok)], ?_⟩
    have hself : (Act.reported w b ok).caller = some w := rfl
    rw [Act.ledger, List.filter_cons_of_pos (by simp [hself]), ← Act.ledger, ledger_eq_nil hacts]
    simp [paired]

/-- **A move keeps the books right.** -/
theorem Books.accounts {gw : Gateway} {log : List Act} {w : ℕ} {stage : Stage} {r : Gateway × List Act}
    (h : Books gw log) (hr : Accounts gw w stage r) : Books r.1 (log ++ r.2) := by
  have hcounted : (fun u => (r.1.workers u).counted)
      = Function.update (fun u => (gw.workers u).counted) w stage.counted := by
    rw [hr.workers]
    exact Function.comp_update Stage.counted gw.workers w stage
  constructor
  · intro b be' hbe'
    obtain ⟨be, hbe, hchange⟩ := hr.connections b be' hbe'
    obtain ⟨hfinite, hcount⟩ := h.connections b be hbe
    rw [Gateway.inFlight, hcounted, hchange, hcount]
    obtain ⟨hfinite', hcount'⟩ := ncard_holders_update hfinite w stage.counted
    exact ⟨hfinite', hcount'.symm⟩
  · intro u
    obtain ⟨calls, hcalls⟩ := h.ledger u
    rw [hr.workers, ledger_append, hcalls]
    by_cases hu : u = w
    · subst hu
      rw [Function.update_self]
      exact hr.entry.ledger_self calls
    · rw [Function.update_of_ne hu, hr.entry.ledger_of_ne hu, List.append_nil]
      exact ⟨calls, rfl⟩

theorem Books.move {gw : Gateway} {log : List Act} (h : Books gw log) (e : Move) :
    Books (gw.move e).1 (log ++ (gw.move e).2) := by
  obtain ⟨w, stage, hr⟩ := accounts_move gw e
  exact h.accounts hr

/-! ## Every admission is reported -/

/-- How many steps a worker is away from its report, at most. -/
def Stage.due : Stage → ℕ
  | .admitted _ _ => 7
  | .acquiring _ _ => 6
  | .dialing _ _ => 5
  | .exchanging _ _ _ => 4
  | .exchanged _ _ _ _ => 3
  | .settling _ _ _ _ => 2
  | .failed _ _ => 1
  | _ => 0

/-- The worker goes to a place where it owes the same, and sooner. -/
theorem due_goTo {gw gw' : Gateway} {w : ℕ} {stage : Stage} {next : Stage × List Act}
    (hstage : gw.workers w = stage) (howed : next.1.owed = stage.owed) (hdue : next.1.due < stage.due) :
    ((gw'.goTo w next).1.workers w).owed = (gw.workers w).owed ∧
      ((gw'.goTo w next).1.workers w).due < (gw.workers w).due := by
  simp only [hstage, Gateway.goTo, Function.update_self]
  exact ⟨howed, hdue⟩

/-- The worker's own step brings its report nearer. -/
theorem step_due {gw : Gateway} {w : ℕ} {b : BackendRef} (h : (gw.workers w).owed = some b)
    (input : Input) :
    (∃ ok, .reported w b ok ∈ (gw.step w input).2) ∨
      (((gw.step w input).1.workers w).owed = (gw.workers w).owed ∧
        ((gw.step w input).1.workers w).due < (gw.workers w).due) := by
  cases hstage : gw.workers w with
  | idle => simp [hstage, Stage.owed] at h
  | picking call scan => simp [hstage, Stage.owed] at h
  | picked call i => simp [hstage, Stage.owed] at h
  | admitted call i =>
    simp only [Gateway.step, hstage]
    exact .inr (hstage ▸ due_goTo hstage rfl (by simp [Stage.due]))
  | acquiring call i =>
    simp only [Gateway.step, hstage]
    split
    · exact .inr (hstage ▸ due_goTo hstage rfl (by simp [Stage.due]))
    · exact .inr (hstage ▸ due_goTo hstage rfl (by simp [Stage.due]))
  | dialing call i =>
    simp only [Gateway.step, hstage]
    exact .inr (hstage ▸ due_goTo hstage rfl (by simp [Stage.due]))
  | exchanging call i fd =>
    simp only [Gateway.step, hstage]
    split
    · exact .inr (hstage ▸ due_goTo hstage rfl (by simp [Stage.due]))
    · exact .inr (hstage ▸ due_goTo hstage rfl (by simp [Stage.due]))
  | exchanged call i fd outcome =>
    simp only [Gateway.step, hstage]
    exact .inr (hstage ▸ due_goTo hstage rfl (by simp [Stage.due]))
  | settling call i fd outcome =>
    cases outcome with
    | some result =>
      obtain rfl : ⟨call.group, i⟩ = b := by simpa [hstage, Stage.owed] using h
      exact .inl ⟨true, by simp [Gateway.step, hstage, Gateway.goTo]⟩
    | none =>
      simp only [Gateway.step, hstage]
      exact .inr (hstage ▸ due_goTo hstage rfl (by simp [Stage.due]))
  | succeeded call i fd resp reusable => simp [hstage, Stage.owed] at h
  | failed call i =>
    obtain rfl : ⟨call.group, i⟩ = b := by simpa [hstage, Stage.owed] using h
    exact .inl ⟨false, by simp [Gateway.step, hstage, Gateway.goTo]⟩

/-- Steps of a worker. -/
def Move.isStepOf (w : ℕ) : Move → Bool
  | .step u _ => u = w
  | _ => false

theorem exists_step_of_isStepOf {w : ℕ} {e : Move} (h : e.isStepOf w = true) :
    ∃ input, e = .step w input := by
  cases e with
  | step u input =>
    obtain rfl : u = w := by simpa [Move.isStepOf] using h
    exact ⟨input, rfl⟩
  | call u group attempts => simp [Move.isStepOf] at h
  | health group i healthy => simp [Move.isStepOf] at h
  | closeAll keys => simp [Move.isStepOf] at h

/-- Other moves leave a worker at work where it is. -/
theorem move_other {gw : Gateway} {w : ℕ} (h : gw.workers w ≠ .idle) {e : Move}
    (he : e.isStepOf w = false) : (gw.move e).1.workers w = gw.workers w := by
  cases e with
  | call u group attempts =>
    rw [Gateway.move]
    split
    · rename_i hidle
      have hne : w ≠ u := fun heq => h (heq ▸ hidle)
      exact Function.update_of_ne hne _ _
    · rfl
  | step u input =>
    have hne : w ≠ u := by simpa [Move.isStepOf, eq_comm] using he
    obtain ⟨stage, hr⟩ := accounts_step gw u input
    rw [Gateway.move, hr.workers, Function.update_of_ne hne]
  | health group i healthy => rfl
  | closeAll keys => rfl

/-- **A report comes** with so many steps of the worker, whatever happens in between. -/
theorem reported_of_due {gw : Gateway} {w : ℕ} {b : BackendRef} (h : (gw.workers w).owed = some b)
    {es : List Move} (hes : (gw.workers w).due ≤ es.countP (Move.isStepOf w)) :
    ∃ ok, .reported w b ok ∈ (Reactive.run Gateway.move gw es).2 := by
  induction es generalizing gw with
  | nil =>
    exfalso
    cases hstage : gw.workers w <;> simp_all [Stage.owed, Stage.due]
  | cons e es ih =>
    rw [Reactive.run_cons]
    simp only [List.mem_append, exists_or]
    by_cases he : e.isStepOf w = true
    · rw [List.countP_cons_of_pos he] at hes
      obtain ⟨input, rfl⟩ := exists_step_of_isStepOf he
      rcases step_due h input with hdone | ⟨howed, hdue⟩
      · exact .inl hdone
      · exact .inr (ih (howed.trans h) (by rw [Gateway.move]; omega))
    · have hidle : gw.workers w ≠ .idle := by
        intro hidle
        simp [hidle, Stage.owed] at h
      have hsame := move_other hidle (Bool.not_eq_true _ ▸ he)
      rw [List.countP_cons_of_neg he] at hes
      exact .inr (ih (hsame ▸ h) (hsame ▸ hes))

/-! ## An undisturbed pick -/

theorem endPick_acts (w : ℕ) (call : ForwardCall) (result : Option ℕ) :
    (endPick w call result).2 = [.chose w call.group result] := by
  cases result <;> rfl

/-- The steps of one worker with nothing in between. -/
def Gateway.alone (gw : Gateway) (w : ℕ) (inputs : List Input) : List Act :=
  (Reactive.run Gateway.move gw (inputs.map (.step w))).2

theorem Goes.alone {w : ℕ} {inputs : List Input} {gw gw' : Gateway} {stage : Stage}
    {next : Stage × List Act} (h : Goes w inputs gw (stage, []) gw' next) (hstage : gw.workers w = stage) :
    gw.alone w inputs = next.2 := by
  obtain ⟨acts, hacts, hrun⟩ := h
  have hself : (gw.goTo w (stage, [])).1 = gw := by rw [Gateway.goTo, ← hstage, Function.update_eq_self]
  rw [hself] at hrun
  rw [Gateway.alone, hrun, hacts]
  rfl

/-- A pick that has just begun. -/
theorem pick_undisturbed {gw : Gateway} {w : ℕ} {call : ForwardCall}
    (h : gw.workers w = .picking call (.looking 0 none)) :
    ∃ k, ∀ inputs : List Input, inputs.length = k →
      gw.alone w inputs = [.chose w call.group (gw.groups call.group).pickLeastConnections] := by
  by_cases hsize : 0 < (gw.groups call.group).size
  · obtain ⟨k, hk⟩ := look_goes gw w call _ 0 (Nat.zero_add _)
    rw [look, if_pos hsize] at hk
    exact ⟨k, fun inputs hinputs => ((hk inputs hinputs).alone h).trans (endPick_acts w call _)⟩
  · have hnil : (gw.groups call.group).backends = [] := by
      rw [LoadBalancer.size] at hsize
      exact List.length_eq_zero_iff.mp (by omega)
    have hnext : (scanStep (gw.groups call.group) w call (.looking 0 none)).2
        = endPick w call (gw.groups call.group).pickLeastConnections := by
      simp [scanStep, LoadBalancer.isHealthy, hnil, look, LoadBalancer.size,
        LoadBalancer.pickLeastConnections]
    refine ⟨1, fun inputs hinputs => ?_⟩
    obtain ⟨input, rfl⟩ := List.length_eq_one_iff.mp hinputs
    exact ((load_goes hnext rfl input).alone h).trans (endPick_acts w call _)

/-- A call for which the first pick comes at once. -/
theorem call_undisturbed {gw : Gateway} {w group attempts : ℕ} (hidle : gw.workers w = .idle)
    (hattempts : 0 < attempts) (hstrategy : (gw.groups group).strategy = .LeastConnections) :
    ∃ k, ∀ inputs : List Input, inputs.length = k →
      (gw.move (.call w group attempts)).2 ++ (gw.move (.call w group attempts)).1.alone w inputs
        = [.chose w group (gw.groups group).pickLeastConnections] := by
  obtain ⟨k, hk⟩ := pick_goes gw w { group, attempts } hattempts
  refine ⟨k, fun inputs hinputs => ?_⟩
  obtain ⟨acts, hacts, hrun⟩ := hk inputs hinputs
  rw [Gateway.move, if_pos hidle, Gateway.alone, hrun]
  calc (startAttempt gw.groups w { group, attempts }).2 ++ acts
      = (endPick w { group, attempts } (gw.groups group).pick.1).2 := hacts.symm
    _ = [.chose w group (gw.groups group).pick.1] := endPick_acts w _ _
    _ = [.chose w group (gw.groups group).pickLeastConnections] := by
      rw [LoadBalancer.pick_of_leastConnections hstrategy]

/-- The first of the healthy backends with the fewest attempts in flight. -/
def Gateway.FewestInFlight (gw : Gateway) (group i : ℕ) : Prop :=
  (gw.groups group).isHealthy i = true ∧ ∀ j, (gw.groups group).isHealthy j = true →
    (gw.inFlight ⟨group, i⟩).ncard ≤ (gw.inFlight ⟨group, j⟩).ncard ∧
      (j < i → (gw.inFlight ⟨group, i⟩).ncard < (gw.inFlight ⟨group, j⟩).ncard)

theorem Books.leastLoaded_iff {gw : Gateway} {log : List Act} (h : Books gw log) (group i : ℕ) :
    LoadBalancer.LeastLoaded (gw.groups group).backends i ↔ gw.FewestInFlight group i := by
  have hcount : ∀ (j : ℕ) (b : Backend), (gw.groups group).backends[j]? = some b →
      b.activeConnections = (gw.inFlight ⟨group, j⟩).ncard := fun j b hb =>
    (h.connections ⟨group, j⟩ b hb).2
  constructor
  · rintro ⟨b, hb, hhealthy, hleast⟩
    refine ⟨(LoadBalancer.isHealthy_iff _ i).mpr ⟨b, hb, hhealthy⟩, fun j hj => ?_⟩
    obtain ⟨b', hb', hhealthy'⟩ := (LoadBalancer.isHealthy_iff _ j).mp hj
    have := hleast j b' hb' hhealthy'
    rw [hcount i b hb, hcount j b' hb'] at this
    exact_mod_cast this
  · rintro ⟨hi, hleast⟩
    obtain ⟨b, hb, hhealthy⟩ := (LoadBalancer.isHealthy_iff _ i).mp hi
    refine ⟨b, hb, hhealthy, fun j b' hb' hhealthy' => ?_⟩
    have := hleast j ((LoadBalancer.isHealthy_iff _ j).mpr ⟨b', hb', hhealthy'⟩)
    rw [hcount i b hb, hcount j b' hb']
    exact_mod_cast this

/-- What an undisturbed pick by least connections returns. -/
structure Gateway.PicksFewest (gw : Gateway) (group : ℕ) (result : Option ℕ) : Prop where
  some_iff : ∀ i, result = some i ↔ gw.FewestInFlight group i
  none_iff : result = none ↔ ∀ j, (gw.groups group).isHealthy j = false

theorem Books.picksFewest {gw : Gateway} {log : List Act} (h : Books gw log) (group : ℕ) :
    gw.PicksFewest group (gw.groups group).pickLeastConnections where
  some_iff i := (LoadBalancer.pickLeastConnections_eq_some_iff _ i).trans (h.leastLoaded_iff group i)
  none_iff := LoadBalancer.pickLeastConnections_eq_none_iff _

/-! ## Every run -/

theorem books_start {groups : ℕ → LoadBalancer}
    (hzero : ∀ group, ∀ b ∈ (groups group).backends, b.activeConnections = 0) (maxIdlePerBackend : ℕ) :
    Books (Gateway.start groups maxIdlePerBackend) [] where
  connections b be hbe := by
    have hnobody : (Gateway.start groups maxIdlePerBackend).inFlight b = ∅ := by
      ext w
      simp [Gateway.inFlight, holders, Gateway.start, Stage.counted]
    rw [hnobody, hzero b.group be (List.mem_of_getElem? hbe)]
    simp
  ledger w := ⟨[], rfl⟩

/-- **In-flight accounting.** In every run of any number of workers, `activeConnections` is the number of
workers between `fetch_add` and `fetch_sub`; the breakers get one report for each request that they have
admitted, at the latest with the worker's seventh step after it; and a pick by least connections that no
other step overlaps returns the first healthy backend with the fewest attempts in flight, if one is
healthy. -/
theorem in_flight_accounting (groups : ℕ → LoadBalancer) (maxIdlePerBackend : ℕ)
    (hzero : ∀ group, ∀ b ∈ (groups group).backends, b.activeConnections = 0) (es : List Move) :
    let r := Reactive.run Gateway.move (Gateway.start groups maxIdlePerBackend) es
    (∀ b be, r.1.backend b = some be →
      (r.1.inFlight b).Finite ∧ be.activeConnections = (r.1.inFlight b).ncard ∧
      0 ≤ be.activeConnections ∧ (r.1.inFlight b = ∅ → be.activeConnections = 0)) ∧
    (∀ w, ∃ calls,
      Act.ledger w r.2 = paired w calls ++ (r.1.workers w).owed.toList.map (.admitted w)) ∧
    (∀ w b, (r.1.workers w).owed = some b → ∀ es', 7 ≤ es'.countP (Move.isStepOf w) →
      ∃ ok, .reported w b ok ∈ (Reactive.run Gateway.move r.1 es').2) ∧
    (∀ w call, r.1.workers w = .picking call (.looking 0 none) →
      ∃ k result, r.1.PicksFewest call.group result ∧ ∀ inputs : List Input, inputs.length = k →
        r.1.alone w inputs = [.chose w call.group result]) ∧
    ∀ w group attempts, r.1.workers w = .idle → 0 < attempts →
      (r.1.groups group).strategy = .LeastConnections →
      ∃ k result, r.1.PicksFewest group result ∧ ∀ inputs : List Input, inputs.length = k →
        (r.1.move (.call w group attempts)).2 ++ (r.1.move (.call w group attempts)).1.alone w inputs
          = [.chose w group result] := by
  intro r
  have hbooks : Books r.1 r.2 :=
    Reactive.run_invariant (books_start hzero maxIdlePerBackend) (fun _ _ e h => h.move e) es
  refine ⟨fun b be hbe => ?_, hbooks.ledger, fun w b howed es' hes' => ?_, fun w call hw => ?_,
    fun w group attempts hidle hattempts hstrategy => ?_⟩
  · obtain ⟨hfinite, hcount⟩ := hbooks.connections b be hbe
    refine ⟨hfinite, hcount, by omega, fun hempty => ?_⟩
    rw [hcount, hempty, Set.ncard_empty]
    rfl
  · refine reported_of_due howed (le_trans ?_ hes')
    cases r.1.workers w <;> simp [Stage.due]
  · obtain ⟨k, hk⟩ := pick_undisturbed hw
    exact ⟨k, _, hbooks.picksFewest call.group, hk⟩
  · obtain ⟨k, hk⟩ := call_undisturbed hidle hattempts hstrategy
    exact ⟨k, _, hbooks.picksFewest group, hk⟩

/-- A worker that has dialed, and has not exchanged anything yet. -/
def oneDialed : List Move := .call 0 0 1 :: List.replicate 6 (.step 0 { dialed := 7 })

def leastConnected (_ : ℕ) : LoadBalancer where
  backends := [{ host := bytes "b", port := 81,
                 circuitBreaker := { failureThreshold := 1, resetTimeout := 1 } }]
  strategy := .LeastConnections

theorem in_flight_accounting_oneDialed :
    ((Reactive.run Gateway.move (Gateway.start leastConnected 1) oneDialed).1.inFlight ⟨0, 0⟩).ncard
      = 1 := by
  have hzero : ∀ group, ∀ b ∈ (leastConnected group).backends, b.activeConnections = 0 := by
    simp [leastConnected]
  obtain ⟨hconnections, -⟩ := in_flight_accounting leastConnected 1 hzero oneDialed
  obtain ⟨-, hcount, -⟩ := hconnections ⟨0, 0⟩
    { host := bytes "b", port := 81, activeConnections := 1,
      circuitBreaker := { failureThreshold := 1, resetTimeout := 1 } } rfl
  exact Int.ofNat.inj hcount.symm

end ApiGateway.Core
