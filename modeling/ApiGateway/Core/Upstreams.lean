import ApiGateway.Common.Tenants
import ApiGateway.Core.Sockets
import ApiGateway.Network.Dialing

/-!
# The descriptors of the backend connections

The workers in `forwardWithResilience`, with `dialNew` in two steps: a socket is opened, and later on it is
closed again or handed to the worker. In between it is in nobody's table, and the other workers move on. The
calls that open, use and close descriptors are the effects; they are orderly, and what they leave open is what
the workers have, what lies in the queues of the pool, and the sockets in `dialNew` (`Upstreams.Inv.step`).

Reference: `Gateway::forwardWithResilience` in `src/core/Gateway.cpp`, `src/network/ConnectionPool.cpp`.
-/

namespace ApiGateway.Core

open Str Routing Network Descriptors Tenants

/-! ## The model -/

/-- The gateway with its log, and the sockets of the workers that are in `dialNew`. -/
structure Upstreams where
  gw : Gateway
  log : List Act := []
  dials : ℕ → Option ℤ := fun _ => none

inductive UpstreamSignal where
  | move (e : Move)
  /-- A worker goes on in `dialNew`. -/
  | dial (w : ℕ) (r : DialResults)

namespace Upstreams

/-- `dialNew` has opened a socket. -/
def startDial (u : Upstreams) (w : ℕ) (fd : ℤ) : Upstreams :=
  { u with dials := Function.update u.dials w (some fd) }

/-- `dialNew` has returned. -/
def endDial (u : Upstreams) (w : ℕ) (result : ℤ) : Upstreams where
  gw := (u.gw.step w { dialed := result }).1
  log := u.log ++ (u.gw.step w { dialed := result }).2
  dials := Function.update u.dials w none

/-- A worker in `dialNew`: up to `socket`, or from there on. -/
def dial (u : Upstreams) (w : ℕ) (call : ForwardCall) (i : ℕ) (r : DialResults) :
    Upstreams × List (Call ℤ Unit) :=
  let (host, port) := u.gw.address call.group i
  match u.dials w with
  | none =>
    if !r.resolved || r.socket < 0 then (u.endDial w (dialNew host port r).1, [])
    else (u.startDial w r.socket, [.opened r.socket ()])
  | some fd =>
    let (result, calls) := dialNew host port { r with resolved := true, socket := fd }
    (u.endDial w result, calls.tail.map forget)

/-- A move of the gateway. -/
def move (u : Upstreams) (e : Move) : Upstreams × List (Call ℤ Unit) :=
  let (gw, acts) := u.gw.move e
  ({ u with gw, log := u.log ++ acts }, (calls acts).map forget)

def step (u : Upstreams) : UpstreamSignal → Upstreams × List (Call ℤ Unit)
  | .move (.step w input) =>
    match u.gw.workers w with
    | .dialing _ _ => (u, [])
    | _ => u.move (.step w input)
  | .move e => u.move e
  | .dial w r =>
    match u.gw.workers w with
    | .dialing call i => u.dial w call i r
    | _ => (u, [])

/-- The descriptors in the variables: those of the workers, those in the queues, and those in `dialNew`. -/
def openFds (u : Upstreams) : Set ℤ := {fd | ∃ o, Owns u.gw fd o} ∪ {fd | ∃ w, u.dials w = some fd}

/-- `closeAll` comes when the workers are done, and meets every queue once. -/
def Permitted (u : Upstreams) : UpstreamSignal → Prop
  | .move (.closeAll keys) => Core.Permitted u.gw u.log (.closeAll keys)
  | _ => True

/-! ## What stays as it is -/

/-- A move changes the place of one worker at most. -/
theorem workers_goTo (gw : Gateway) (w : ℕ) (next : Stage × List Act) {v : ℕ} (hv : v ≠ w) :
    (gw.goTo w next).1.workers v = gw.workers v := Function.update_of_ne hv _ _

theorem workers_step_of_ne (gw : Gateway) {w v : ℕ} (input : Input) (hv : v ≠ w) :
    (gw.step w input).1.workers v = gw.workers v := by
  cases hstage : gw.workers w with
  | idle => simp only [Gateway.step, hstage]
  | picked call i =>
    simp only [Gateway.step, hstage]
    split <;> exact workers_goTo _ w _ hv
  | acquiring call i =>
    simp only [Gateway.step, hstage]
    split <;> exact workers_goTo _ w _ hv
  | exchanging call i fd =>
    simp only [Gateway.step, hstage]
    split <;> exact workers_goTo _ w _ hv
  | settling call i fd outcome =>
    cases outcome <;> simp only [Gateway.step, hstage] <;> exact workers_goTo _ w _ hv
  | _ =>
    simp only [Gateway.step, hstage]
    exact workers_goTo _ w _ hv

/-! ## The invariant -/

/-- **The calls leave open what the variables say.** -/
structure Inv (u : Upstreams) (calls : List (Call ℤ Unit)) : Prop where
  opens : Opens calls u.openFds
  owned : Owned u.gw u.log
  dialing : ∀ w fd, u.dials w = some fd → 0 ≤ fd ∧ kernel u.log fd = none ∧
    ∃ call i, u.gw.workers w = .dialing call i
  injective : ∀ w w' fd, u.dials w = some fd → u.dials w' = some fd → w = w'

theorem mem_openFds_iff {u : Upstreams} (h : Owned u.gw u.log) (fd : ℤ) :
    fd ∈ u.openFds ↔ kernel u.log fd ≠ none ∨ ∃ w, u.dials w = some fd := by
  have howned : (∃ o, Owns u.gw fd o) ↔ kernel u.log fd ≠ none :=
    ⟨fun ho => ho.elim fun o ho => h.sole.alive fd o ho, fun hopen => (h.sole.existsUnique fd hopen).exists⟩
  simp only [openFds, Set.mem_union, Set.mem_ofPred_eq, howned]

theorem inv_start (groups : ℕ → LoadBalancer) (maxIdlePerBackend : ℕ) :
    Inv { gw := .start groups maxIdlePerBackend } [] := by
  have howned : Owned (Gateway.start groups maxIdlePerBackend) [] := owned_start groups maxIdlePerBackend
  refine ⟨opens_nil.congr fun fd => ?_, howned, by simp, by simp⟩
  rw [mem_openFds_iff howned]
  simp [kernel, calls, after]

namespace Inv

variable {u : Upstreams} {calls : List (Call ℤ Unit)}

theorem notMem (h : Inv u calls) {fd : ℤ} (hfree : after (fun _ => none) calls fd = none) :
    fd ∉ u.openFds :=
  fun hmem => (h.opens.open_iff fd).mpr hmem hfree

/-- A move that leaves the workers in `dialNew` where they are. -/
theorem move (h : Inv u calls) {e : Move} (he : Core.Permitted u.gw u.log e)
    (hdialing : ∀ w call i, u.gw.workers w = .dialing call i →
      (u.gw.move e).1.workers w = .dialing call i)
    (hfree : ∀ fd target, .opened fd target ∈ (u.move e).2 → after (fun _ => none) calls fd = none) :
    Inv (u.move e).1 (calls ++ (u.move e).2) := by
  have howned : Owned (u.move e).1.gw (u.move e).1.log := h.owned.move he
  -- the table of the gateway is one part of the open descriptors, and the sockets in `dialNew` are the other
  have hopens : Opens calls ({fd | kernel u.log fd ≠ none} ∪ {fd | ∃ w, u.dials w = some fd}) :=
    h.opens.congr fun fd => (mem_openFds_iff h.owned fd).symm
  have horderly : Orderly (kernel u.log) (Core.calls (u.gw.move e).2) :=
    ((orderly_filterMap_append _ _ u.log _).mp howned.orderly).2
  have hfresh : ∀ fd target, .opened fd target ∈ Core.calls (u.gw.move e).2 →
      fd ∉ {fd | ∃ w, u.dials w = some fd} := fun fd target hmem hdial =>
    h.notMem (hfree fd () (List.mem_map_of_mem (f := forget) hmem)) (.inr hdial)
  obtain ⟨hnew, hrest⟩ := hopens.part (fun fd hfd => hfd.elim fun w hw => (h.dialing w fd hw).2.1)
    horderly hfresh
  rw [← kernel_append] at hnew hrest
  refine ⟨hnew.congr fun fd => mem_openFds_iff howned fd, howned, fun w fd hw => ?_, h.injective⟩
  obtain ⟨hfd, -, call, i, hstage⟩ := h.dialing w fd hw
  exact ⟨hfd, hrest fd ⟨w, hw⟩, call, i, hdialing w call i hstage⟩

/-- The end of `dialNew`: the socket of the worker, if there is one, is closed or handed over. -/
theorem endDial (h : Inv u calls) {w : ℕ} {call : ForwardCall} {i : ℕ} {result : ℤ}
    (hstage : u.gw.workers w = .dialing call i) {new : List (Call ℤ Unit)}
    (hresult : 0 ≤ result → kernel u.log result = none ∧ u.dials w = some result)
    (hopens : Opens (calls ++ new)
      {fd | kernel u.log fd ≠ none ∨ fd = result ∧ 0 ≤ result ∨ ∃ v, v ≠ w ∧ u.dials v = some fd}) :
    Inv (u.endDial w result) (calls ++ new) := by
  have howned : Owned (u.endDial w result).gw (u.endDial w result).log :=
    h.owned.step w _ fun _ _ _ hfd => (hresult hfd).1
  have hlog : (u.endDial w result).log = u.log ++ if 0 ≤ result then
      [.dialed result (u.gw.address call.group i).1 (u.gw.address call.group i).2] else [] := by
    rw [Upstreams.endDial, Gateway.step, hstage]
    rfl
  have hkernel : ∀ fd, kernel (u.endDial w result).log fd ≠ none ↔
      kernel u.log fd ≠ none ∨ fd = result ∧ 0 ≤ result := by
    intro fd
    rw [hlog]
    by_cases hfd : 0 ≤ result
    · rw [if_pos hfd, kernel_append]
      by_cases heq : fd = result
      · simp [Core.calls, Act.call, after, Call.apply, heq, hfd]
      · simp [Core.calls, Act.call, after, Call.apply, heq]
    · simp [hfd]
  have hdials : ∀ v fd, (u.endDial w result).dials v = some fd ↔ v ≠ w ∧ u.dials v = some fd := by
    intro v fd
    by_cases hv : v = w
    · simp [Upstreams.endDial, hv]
    · simp [Upstreams.endDial, hv]
  refine ⟨hopens.congr fun fd => ?_, howned, fun v fd hv => ?_, fun v v' fd hv hv' => ?_⟩
  · rw [mem_openFds_iff howned, hkernel]
    simp only [hdials, Set.mem_ofPred_eq, or_assoc]
  · obtain ⟨hne, hdial⟩ := (hdials v fd).mp hv
    obtain ⟨hfd, hfree, call', i', hstage'⟩ := h.dialing v fd hdial
    refine ⟨hfd, ?_, call', i', (workers_step_of_ne _ _ hne).trans hstage'⟩
    -- another worker's socket is another one
    by_contra hopen
    rcases (hkernel fd).mp hopen with hopen | ⟨rfl, hfd⟩
    · exact hopen hfree
    · exact hne (h.injective v w fd hdial (hresult hfd).2)
  · exact h.injective v v' fd ((hdials v fd).mp hv).2 ((hdials v' fd).mp hv').2

/-- The beginning of `dialNew`. -/
theorem startDial (h : Inv u calls) {w : ℕ} {call : ForwardCall} {i : ℕ} {fd : ℤ}
    (hstage : u.gw.workers w = .dialing call i) (hdial : u.dials w = none) (hfd : 0 ≤ fd)
    (hnot : fd ∉ u.openFds) : Inv (u.startDial w fd) (calls ++ [.opened fd ()]) := by
  have hmem := mem_openFds_iff h.owned
  have hdials : ∀ v fd', (u.startDial w fd).dials v = some fd' ↔
      (v = w ∧ fd' = fd) ∨ u.dials v = some fd' := by
    intro v fd'
    by_cases hv : v = w
    · simp [Upstreams.startDial, hv, hdial, eq_comm]
    · simp [Upstreams.startDial, hv]
  have hnobody : ∀ v, u.dials v ≠ some fd := fun v hv => hnot (.inr ⟨v, hv⟩)
  have howned : Owned (u.startDial w fd).gw (u.startDial w fd).log := h.owned
  refine ⟨(h.opens.opened hnot ()).congr fun fd' => ?_, howned, fun v fd' hv => ?_,
    fun v v' fd' hv hv' => ?_⟩
  · rw [Set.mem_insert_iff, hmem, mem_openFds_iff howned]
    simp only [hdials, exists_or, exists_eq_left]
    exact or_left_comm
  · rcases (hdials v fd').mp hv with ⟨rfl, rfl⟩ | hold
    · refine ⟨hfd, ?_, call, i, hstage⟩
      by_contra hopen
      exact hnot ((hmem _).mpr (.inl hopen))
    · exact h.dialing v fd' hold
  · rcases (hdials v fd').mp hv with ⟨rfl, rfl⟩ | hold <;>
      rcases (hdials v' fd').mp hv' with ⟨rfl, hsame⟩ | hold'
    · rfl
    · exact absurd hold' (hnobody v')
    · exact absurd (hsame ▸ hold) (hnobody v)
    · exact h.injective v v' fd' hold hold'

/-- **A step in `dialNew`.** -/
theorem dial (h : Inv u calls) {w : ℕ} {call : ForwardCall} {i : ℕ}
    (hstage : u.gw.workers w = .dialing call i) (r : DialResults)
    (hfree : ∀ fd target, .opened fd target ∈ (u.dial w call i r).2 →
      after (fun _ => none) calls fd = none) :
    Inv (u.dial w call i r).1 (calls ++ (u.dial w call i r).2) := by
  have hmem := mem_openFds_iff h.owned
  cases hdial : u.dials w with
  | none =>
    simp only [Upstreams.dial, hdial] at hfree ⊢
    split
    · rename_i hnone
      have hresult : dialNew (u.gw.address call.group i).1 (u.gw.address call.group i).2 r = (-1, []) := by
        rw [dialNew, connectTo_of_no_socket _ _ (by simpa using hnone)]
      rw [hresult]
      refine h.endDial hstage (by omega) ?_
      rw [List.append_nil]
      refine h.opens.congr fun fd => ?_
      rw [hmem]
      simp only [Set.mem_ofPred_eq, Int.reduceNeg, Int.reduceLE, and_false, false_or]
      -- this worker has no socket that could be missing
      refine or_congr_right (exists_congr fun v => and_iff_right_iff_imp.mpr ?_)
      rintro hv rfl
      rw [hdial] at hv
      cases hv
    · rename_i hsocket
      rw [if_neg hsocket] at hfree
      obtain ⟨-, hfd⟩ : r.resolved = true ∧ 0 ≤ r.socket := by simpa using hsocket
      exact h.startDial hstage hdial hfd (h.notMem (hfree _ () List.mem_cons_self))
  | some fd =>
    obtain ⟨hfd, hclosed, -⟩ := h.dialing w fd hdial
    -- the sockets in `dialNew` are this one and those of the others
    have hsplit : ∀ fd', (∃ v, u.dials v = some fd') ↔ fd' = fd ∨ ∃ v, v ≠ w ∧ u.dials v = some fd' := by
      intro fd'
      constructor
      · rintro ⟨v, hv⟩
        by_cases hvw : v = w
        · subst hvw
          exact .inl (Option.some.inj (hv.symm.trans hdial))
        · exact .inr ⟨v, hvw, hv⟩
      · rintro (rfl | ⟨v, -, hv⟩)
        · exact ⟨w, hdial⟩
        · exact ⟨v, hv⟩
    have hothers : ¬ ∃ v, v ≠ w ∧ u.dials v = some fd := by
      rintro ⟨v, hvw, hv⟩
      exact hvw (h.injective v w fd hv hdial)
    simp only [Upstreams.dial, hdial, dialNew]
    rcases connectTo_of_socket (u.gw.address call.group i).1 (u.gw.address call.group i).2
      (r := { r with resolved := true, socket := fd }) rfl hfd with hfailed | hconnected
    · simp only [hfailed]
      refine h.endDial hstage (by omega)
        ((h.opens.closed ((hmem fd).mpr (.inr ⟨w, hdial⟩))).congr fun fd' => ?_)
      rw [Set.mem_sdiff, hmem, hsplit]
      by_cases heq : fd' = fd
      · simpa [heq, hclosed] using hothers
      · simp [heq]
    · simp only [hconnected]
      refine h.endDial hstage (fun _ => ⟨hclosed, hdial⟩) ?_
      rw [List.tail_cons, List.map_nil, List.append_nil]
      refine h.opens.congr fun fd' => ?_
      rw [hmem, hsplit]
      simp [hfd]

/-- **A step of the workers.** -/
theorem step (h : Inv u calls) {e : UpstreamSignal} (he : Permitted u e)
    (hfree : ∀ fd target, .opened fd target ∈ (u.step e).2 → after (fun _ => none) calls fd = none) :
    Inv (u.step e).1 (calls ++ (u.step e).2) := by
  have hstay : Inv u (calls ++ []) := by rwa [List.append_nil]
  cases e with
  | dial w r =>
    rw [Upstreams.step] at hfree ⊢
    split
    · rename_i call i hstage
      simp only [hstage] at hfree
      exact h.dial hstage r hfree
    · exact hstay
  | move e =>
    cases e with
    | step w input =>
      by_cases hdialing : ∃ call i, u.gw.workers w = .dialing call i
      · obtain ⟨call, i, hstage⟩ := hdialing
        simpa only [Upstreams.step, hstage] using hstay
      · have hstep : u.step (.move (.step w input)) = u.move (.step w input) := by
          rw [Upstreams.step]
          split
          · exact absurd ⟨_, _, ‹_›⟩ hdialing
          · rfl
        rw [hstep] at hfree ⊢
        refine h.move ?_ (fun v call i hstage => ?_) hfree
        · rw [Core.Permitted]
          split
          · exact absurd ⟨_, _, ‹_›⟩ hdialing
          · trivial
        · have hvw : v ≠ w := by
            rintro rfl
            exact hdialing ⟨call, i, hstage⟩
          exact (workers_step_of_ne _ _ hvw).trans hstage
    | call w group attempts =>
      refine h.move trivial (fun v call i hstage => ?_) hfree
      rw [Gateway.move]
      split
      · rename_i hidle
        have hvw : v ≠ w := by
          rintro rfl
          rw [hidle] at hstage
          cases hstage
        exact (workers_goTo _ w _ hvw).trans hstage
      · exact hstage
    | health group i healthy => exact h.move trivial (fun v call i hstage => hstage) hfree
    | closeAll keys => exact h.move he (fun v call i hstage => hstage) hfree

end Inv

end Upstreams

end ApiGateway.Core
