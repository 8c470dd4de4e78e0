import ApiGateway.Core.MetricsServer
import ApiGateway.Core.Upstreams
import ApiGateway.Core.WorkerThread
import ApiGateway.Network.HealthChecker

/-!
# The descriptors of the process

The worker threads, the backend connections that they share, the health checker and the metrics server run at the
same time in one process, so that they get their descriptors from one kernel, which uses a number again as soon as
it is closed. Each of them is orderly as long as it gets no number that is open (`Tenants.Opens`), and so they are
respectful together: a component never uses or closes a descriptor of another one, whatever the order of their
steps and whatever the system calls return (`descriptors_stay_apart`). Once the threads have ended and the pool is
closed, no descriptor is open, except for that of a metrics server whose constructor has thrown.

A worker forwards a request in the middle of a callback, which is one step of its event loop here: the steps of the
backend connections come before it instead.

Reference: `Gateway::run` in `src/core/Gateway.cpp`.
-/

namespace ApiGateway.Core

open Str Routing Network Descriptors Tenants Interleaving

/-! ## The health checker -/

namespace CheckerDescriptors

def callOf : CheckAct → Option (Call ℤ Unit)
  | .call c => some (forget c)
  | _ => none

/-- The calls among what the health checker does. -/
def callsOf (acts : List CheckAct) : List (Call ℤ Unit) := acts.filterMap callOf

theorem callsOf_append (acts acts' : List CheckAct) : callsOf (acts ++ acts') = callsOf acts ++ callsOf acts' :=
  List.filterMap_append

theorem callsOf_calls (calls : List (Call ℤ (Bytes × ℤ))) : callsOf (calls.map .call) = calls.map forget := by
  rw [callsOf, List.filterMap_map]
  exact List.filterMap_eq_map_iff_forall_eq_some.mpr fun _ _ => rfl

theorem callsOf_settle (hc : HealthChecker) (i : ℕ) (b : Backend) (ok : Bool) :
    callsOf (hc.settle i b ok).2 = [] := by
  simp only [HealthChecker.settle]
  split <;> rfl

/-- The socket of a probe. -/
def openFds (hc : HealthChecker) : Set ℤ := {fd | ∃ i, hc.phase = .connecting i fd}

/-- **The calls leave open what the variables say.** -/
structure Inv (hc : HealthChecker) (calls : List (Call ℤ Unit)) : Prop where
  opens : Opens calls (openFds hc)
  socket : ∀ i fd, hc.phase = .connecting i fd → 0 ≤ fd

theorem inv_start (path : Bytes) (backends : List Backend) : Inv { path, backends } [] :=
  ⟨opens_nil.congr (by simp [openFds]), by simp⟩

theorem not_connecting_settle (hc : HealthChecker) (i : ℕ) (b : Backend) (ok : Bool) (j : ℕ) (fd : ℤ) :
    (hc.settle i b ok).1.phase ≠ .connecting j fd := by
  simp only [HealthChecker.settle, HealthChecker.afterProbe]
  split <;> simp

variable {hc : HealthChecker} {calls : List (Call ℤ Unit)}

/-- Outside a probe nothing is open. -/
theorem Inv.between (h : Inv hc calls) (hbefore : ∀ i fd, hc.phase ≠ .connecting i fd) {hc' : HealthChecker}
    (hafter : ∀ i fd, hc'.phase ≠ .connecting i fd) : Inv hc' (calls ++ []) := by
  rw [List.append_nil]
  exact ⟨h.opens.congr fun fd => by simp [openFds, hbefore, hafter], fun i fd heq => absurd heq (hafter i fd)⟩

theorem Inv.step (h : Inv hc calls) (r : ProbeResults) :
    Inv (hc.step r).1 (calls ++ callsOf (hc.step r).2) := by
  have hstay : Inv hc (calls ++ callsOf []) := by rwa [callsOf, List.filterMap_nil, List.append_nil]
  cases hphase : hc.phase with
  | unstarted => simpa only [HealthChecker.step, hphase] using hstay
  | top =>
    have hbefore : ∀ i fd, hc.phase ≠ .connecting i fd := by simp [hphase]
    simp only [HealthChecker.step, hphase]
    split
    · exact h.between hbefore (by intro i fd; dsimp only; split <;> simp)
    · exact h.between hbefore (by simp)
  | probing i =>
    have hbefore : ∀ i fd, hc.phase ≠ .connecting i fd := by simp [hphase]
    simp only [HealthChecker.step, hphase]
    split
    · exact hstay
    · rename_i b hb
      split
      · rw [callsOf_settle]
        exact h.between hbefore (not_connecting_settle hc i b _)
      · rename_i hsocket
        have hfd : 0 ≤ r.socket := (by simpa using hsocket : r.resolved = true ∧ 0 ≤ r.socket).2
        have hfree : r.socket ∉ openFds hc := by simp [openFds, hphase]
        have hopened := h.opens.opened hfree ()
        refine ⟨hopened.congr fun fd => ?_, fun j fd heq => ?_⟩
        · simp [openFds, hphase, eq_comm]
        · obtain ⟨rfl, rfl⟩ : i = j ∧ r.socket = fd := by simpa using heq
          exact hfd
  | connecting i fd =>
    simp only [HealthChecker.step, hphase]
    split
    · exact hstay
    · rename_i b hb
      have huses : ∃ uses, (checkOne hc.path b.host b.port { r with resolved := true, socket := fd }).2
          = .opened fd (b.host, b.port) :: (List.replicate uses (.used fd) ++ [.closed fd]) :=
        exists_uses_checkOne _ _ _ rfl (h.socket i fd hphase)
      generalize checkOne hc.path b.host b.port { r with resolved := true, socket := fd } = probe at huses
      obtain ⟨ok, probeCalls⟩ := probe
      obtain ⟨uses, rfl⟩ := huses
      dsimp only
      rw [callsOf_append, callsOf_calls, callsOf_settle, List.append_nil, List.tail_cons, List.map_append,
        List.map_replicate, ← List.append_assoc]
      -- the socket is used a few times and closed
      have hused : Opens (calls ++ List.replicate uses (.used fd)) (openFds hc) :=
        h.opens.uses fun call hcall => ⟨fd, ⟨i, hphase⟩, List.eq_of_mem_replicate hcall⟩
      have hopen : fd ∈ openFds hc := ⟨i, hphase⟩
      refine ⟨(hused.closed hopen).congr fun fd' => ?_,
        fun j fd' heq => absurd heq (not_connecting_settle _ _ _ _ j fd')⟩
      refine iff_of_false ?_ ?_
      · rintro ⟨j, hj⟩
        exact not_connecting_settle _ _ _ _ j fd' hj
      · rintro ⟨⟨j, hj⟩, hne⟩
        rw [hphase] at hj
        cases hj
        exact hne rfl
  | waiting =>
    simp only [HealthChecker.step, hphase]
    exact h.between (by simp [hphase]) (by simp)
  | finished => simpa only [HealthChecker.step, hphase] using hstay

theorem Inv.next (h : Inv hc calls) (e : CheckSignal) :
    Inv (hc.next e).1 (calls ++ callsOf (hc.next e).2) := by
  cases e with
  | start =>
    simp only [HealthChecker.next]
    split
    · rename_i hphase
      exact h.between (by simp [hphase]) (by simp)
    · simpa [callsOf] using h
  | stop => simpa [callsOf, HealthChecker.next] using (⟨h.opens, h.socket⟩ : Inv { hc with running := false } calls)
  | step r => exact h.step r

end CheckerDescriptors

/-! ## The metrics server -/

namespace MetricsDescriptors

def callOf : MetricsAct → Option (Call ℤ Unit)
  | .call c => some c
  | .accepted fd => some (.opened fd ())
  | .sent fd _ => some (.used fd)
  | .sendFailed fd => some (.used fd)
  | _ => none

/-- The calls among what the metrics server does. -/
def callsOf (acts : List MetricsAct) : List (Call ℤ Unit) := acts.filterMap callOf

/-- The descriptors of the thread, by where it is. -/
def openFds (s : MetricsServer) : Set ℤ :=
  match s.phase with
  | .unstarted => ∅
  | .polling listenFd => {listenFd}
  | .accepting listenFd => {listenFd}
  | .sending listenFd fd _ _ => {fd, listenFd}
  | .ended lost => {fd | lost = some fd}

theorem mem_openFds_ended {s : MetricsServer} {lost : Option ℤ} (h : s.phase = .ended lost) (fd : ℤ) :
    fd ∈ openFds s ↔ lost = some fd := by
  simp [openFds, h]

/-- **The calls leave open what the variables say.** -/
structure Inv (s : MetricsServer) (calls : List (Call ℤ Unit)) : Prop where
  opens : Opens calls (openFds s)
  apart : ∀ listenFd fd wire sent, s.phase = .sending listenFd fd wire sent → fd ≠ listenFd

theorem inv_start (metricsPort : ℤ) : Inv { metricsPort } [] := ⟨opens_nil, by simp⟩

variable {s : MetricsServer} {calls : List (Call ℤ Unit)}

theorem Inv.create (h : Inv s calls) (hphase : s.phase = .unstarted) (r : ServerResults) :
    Inv (s.create r).1 (calls ++ callsOf (s.create r).2) := by
  have hnone : ∀ fd, fd ∉ openFds s := by simp [openFds, hphase]
  have hcreated := TcpServer.created r
  rw [MetricsServer.create]
  generalize TcpServer.create r = result at hcreated
  cases hcreated with
  | server fd =>
    exact ⟨(h.opens.opened (hnone fd) ()).congr fun fd' => by simp [openFds, hphase], by simp⟩
  | nothing what =>
    refine ⟨?_, by simp⟩
    show Opens (calls ++ []) _
    rw [List.append_nil]
    exact h.opens.congr fun fd' => by simp [openFds, hphase, TcpServer.lost]
  | lost what fd =>
    exact ⟨(h.opens.opened (hnone fd) ()).congr fun fd' => by
      simp [openFds, hphase, TcpServer.lost, eq_comm], by simp⟩

theorem Inv.send (h : Inv s calls) {listenFd fd : ℤ} {wire : Bytes} {sent : ℕ}
    (hphase : s.phase = .sending listenFd fd wire sent) (n : ℤ) :
    Inv (s.send listenFd fd wire sent n).1 (calls ++ callsOf (s.send listenFd fd wire sent n).2) := by
  have hfd : fd ∈ openFds s := by simp [openFds, hphase]
  have hne : fd ≠ listenFd := h.apart _ _ _ _ hphase
  have hused := h.opens.used hfd
  -- what is left after `close` is the listening socket
  have hclosed : Opens (calls ++ [.used fd] ++ [.closed fd]) {listenFd} :=
    (hused.closed hfd).congr fun fd' => by
      by_cases heq : fd' = fd
      · simp [openFds, hphase, heq, hne]
      · simp [openFds, hphase, heq]
  rw [List.append_assoc] at hclosed
  unfold MetricsServer.send
  split
  · exact ⟨hclosed, by simp⟩
  simp only
  split
  · refine ⟨hused.congr fun fd' => by simp [openFds, hphase], ?_⟩
    rintro _ _ _ _ ⟨⟩
    exact hne
  · exact ⟨hclosed, by simp⟩

theorem Inv.step (h : Inv s calls) (e : MetricsSignal)
    (hfree : ∀ fd target, .opened fd target ∈ callsOf (s.step e).2 → after (fun _ => none) calls fd = none) :
    Inv (s.step e).1 (calls ++ callsOf (s.step e).2) := by
  have hstay : Inv s (calls ++ callsOf []) := by rwa [callsOf, List.filterMap_nil, List.append_nil]
  cases e with
  | create r =>
    cases hphase : s.phase with
    | unstarted =>
      simp only [MetricsServer.step, hphase]
      exact h.create hphase r
    | _ => simpa only [MetricsServer.step, hphase] using hstay
  | poll running ready =>
    cases hphase : s.phase with
    | polling listenFd =>
      have hlisten : listenFd ∈ openFds s := by simp [openFds, hphase]
      simp only [MetricsServer.step, hphase]
      split
      · exact ⟨(h.opens.closed hlisten).congr fun fd => by simp [openFds, hphase], by simp⟩
      split
      · exact ⟨h.opens.used hlisten, by simp [hphase]⟩
      · exact ⟨(h.opens.used hlisten).congr fun fd => by simp [openFds, hphase], by simp⟩
    | _ => simpa only [MetricsServer.step, hphase] using hstay
  | accept result text =>
    cases hphase : s.phase with
    | accepting listenFd =>
      cases result with
      | accepted fd =>
        simp only [MetricsServer.step, hphase] at hfree ⊢
        have hnot : fd ∉ openFds s := fun hmem =>
          (h.opens.open_iff fd).mpr hmem (hfree fd () List.mem_cons_self)
        have hne : fd ≠ listenFd := by
          rintro rfl
          exact hnot (by simp [openFds, hphase])
        refine ⟨(h.opens.opened hnot ()).congr fun fd' => by simp [openFds, hphase], ?_⟩
        rintro _ _ _ _ ⟨⟩
        exact hne
      | interrupted => simpa only [MetricsServer.step, hphase] using hstay
      | failed =>
        simp only [MetricsServer.step, hphase]
        exact ⟨by simpa [callsOf] using h.opens.congr fun fd => by simp [openFds, hphase], by simp⟩
    | _ => simpa only [MetricsServer.step, hphase] using hstay
  | send n =>
    cases hphase : s.phase with
    | sending listenFd fd wire sent =>
      simp only [MetricsServer.step, hphase]
      exact h.send hphase n
    | _ => simpa only [MetricsServer.step, hphase] using hstay

end MetricsDescriptors

/-! ## The process -/

/-- What has descriptors of its own. -/
inductive Component where
  | worker (id : ℕ)
  | upstreams
  | checker
  | metrics
deriving DecidableEq, Repr

namespace Component

def State : Component → Type
  | worker _ => WorkerThread
  | upstreams => Upstreams
  | checker => HealthChecker
  | metrics => MetricsServer

def Signal (σ : Type) : Component → Type
  | worker _ => ThreadSignal σ
  | upstreams => UpstreamSignal
  | checker => CheckSignal
  | metrics => MetricsSignal

variable {σ ρ : Type} (sys : Subsystems σ ρ)

/-- A step of a component, with its calls on descriptors. -/
def step : ∀ c : Component, c.State → c.Signal σ → c.State × List (Call ℤ Unit)
  | worker _, t, e => WorkerThread.step sys t e
  | upstreams, u, e => Upstreams.step u e
  | checker, hc, e => ((HealthChecker.next hc e).1, CheckerDescriptors.callsOf (HealthChecker.next hc e).2)
  | metrics, s, e => ((MetricsServer.step s e).1, MetricsDescriptors.callsOf (MetricsServer.step s e).2)

/-- What is assumed of a component's surroundings, except that a descriptor is new. -/
def Permitted : ∀ c : Component, c.State → List (Call ℤ Unit) → c.Signal σ → Prop
  | worker _, t, _, e => WorkerThread.Permitted t e
  | upstreams, u, _, e => Upstreams.Permitted u e
  | checker, _, _, _ => True
  | metrics, _, _, _ => True

/-- The descriptors in a component's variables. -/
def openFds : ∀ c : Component, c.State → Set ℤ
  | worker _, t => WorkerThread.openFds t
  | upstreams, u => Upstreams.openFds u
  | checker, hc => CheckerDescriptors.openFds hc
  | metrics, s => MetricsDescriptors.openFds s

def Inv : ∀ c : Component, c.State → List (Call ℤ Unit) → Prop
  | worker _, t, calls => WorkerThread.Inv t calls
  | upstreams, u, calls => Upstreams.Inv u calls
  | checker, hc, calls => CheckerDescriptors.Inv hc calls
  | metrics, s, calls => MetricsDescriptors.Inv s calls

theorem Inv.opens {c : Component} {s : c.State} {calls : List (Call ℤ Unit)} (h : Inv c s calls) :
    Opens calls (c.openFds s) := by
  cases c with
  | worker id => exact WorkerThread.Inv.opens h
  | upstreams => exact Upstreams.Inv.opens h
  | checker => exact CheckerDescriptors.Inv.opens h
  | metrics => exact MetricsDescriptors.Inv.opens h

theorem Inv.step {c : Component} {s : c.State} {calls : List (Call ℤ Unit)} (h : Inv c s calls)
    {e : c.Signal σ} (he : Permitted c s calls e)
    (hfree : ∀ fd target, .opened fd target ∈ (c.step sys s e).2 → after (fun _ => none) calls fd = none) :
    Inv c (c.step sys s e).1 (calls ++ (c.step sys s e).2) := by
  cases c with
  | worker id => exact WorkerThread.Inv.step sys h he hfree
  | upstreams => exact Upstreams.Inv.step h he hfree
  | checker => exact CheckerDescriptors.Inv.next h e
  | metrics => exact MetricsDescriptors.Inv.step h e hfree

end Component

/-- What the components are made from. -/
structure ProcessConfig where
  groups : ℕ → LoadBalancer
  maxIdlePerBackend : ℕ
  healthCheckPath : Bytes
  backends : List Backend
  metricsPort : ℤ

/-- Before `run`. -/
def ProcessConfig.start (cfg : ProcessConfig) : ∀ c : Component, c.State
  | .worker _ => WorkerThread.unborn
  | .upstreams => ({ gw := .start cfg.groups cfg.maxIdlePerBackend } : Upstreams)
  | .checker => ({ path := cfg.healthCheckPath, backends := cfg.backends } : HealthChecker)
  | .metrics => ({ metricsPort := cfg.metricsPort } : MetricsServer)

theorem ProcessConfig.inv_start (cfg : ProcessConfig) (c : Component) : c.Inv (cfg.start c) [] := by
  cases c with
  | worker id => exact WorkerThread.inv_unborn
  | upstreams => exact Upstreams.inv_start _ _
  | checker => exact CheckerDescriptors.inv_start _ _
  | metrics => exact MetricsDescriptors.inv_start _

/-- The threads have been joined; the metrics server may have lost a socket. -/
structure Joined (s : ∀ c : Component, c.State) (lost : Option ℤ) : Prop where
  workers : ∀ id, s (.worker id) = WorkerThread.unborn ∨ s (.worker id) = WorkerThread.destroyed
  metrics : MetricsServer.phase (s .metrics) = .ended lost
  checker : HealthChecker.phase (s .checker) = .unstarted ∨ HealthChecker.phase (s .checker) = .finished

/-- The components together, from the start. -/
def runProcess {σ ρ : Type} (sys : Subsystems σ ρ) (cfg : ProcessConfig)
    (es : List (Σ c : Component, c.Signal σ)) : (∀ c : Component, c.State) × List (Component × Call ℤ Unit) :=
  Reactive.run (stepAll (Component.step sys)) cfg.start es

/-- The kernel's table, with the component that has opened a descriptor. -/
def owner (calls : List (Component × Call ℤ Unit)) : Table ℤ Component := owners (fun _ => none) calls

/-- What is assumed of a run: the rules of each component, and that the kernel gives only numbers that are not
open in the process. -/
def Lawful {σ ρ : Type} (sys : Subsystems σ ρ) (cfg : ProcessConfig)
    (es : List (Σ c : Component, c.Signal σ)) : Prop :=
  Reactive.Obeys (stepAll (Component.step sys)) (Granted (Component.step sys) (fun _ => none) Component.Permitted)
    cfg.start [] es

/-- **A component's descriptors are its own.** -/
theorem owner_iff {σ ρ : Type} {sys : Subsystems σ ρ} {cfg : ProcessConfig}
    {es : List (Σ c : Component, c.Signal σ)} (hes : Lawful sys cfg es) :
    let r := runProcess sys cfg es
    Respectful (fun _ => none) r.2 ∧ (∀ c : Component, c.Inv (r.1 c) (own c r.2)) ∧
      ∀ fd c, owner r.2 fd = some c ↔ fd ∈ c.openFds (r.1 c) := by
  intro r
  have hnone : ∀ c : Component, holding (fun _ : ℤ => none) c = fun _ => none := fun c => by
    ext1 fd
    simp [holding]
  obtain ⟨hrespectful, hinv⟩ : Respectful (fun _ => none) r.2 ∧ ∀ c : Component, c.Inv (r.1 c) (own c r.2) := by
    refine respectful_run (fun c s calls e h he hfree => ?_) (fun c s calls h => ?_) cfg.inv_start hes
    · rw [hnone] at hfree
      exact h.step sys he hfree
    · rw [hnone]
      exact h.opens.orderly
  refine ⟨hrespectful, hinv, fun fd c => ?_⟩
  have hopen := (hinv c).opens.open_iff fd
  rw [← hnone c, after_own hrespectful, holding_ne_none_iff] at hopen
  exact hopen

/-- Without workers at work and after `closeAll`, nothing is open. -/
theorem Upstreams.Inv.openFds_closeAll {u : Upstreams} {calls : List (Call ℤ Unit)} (h : u.Inv calls)
    {keys : List Bytes} (hkeys : Core.Permitted u.gw u.log (.closeAll keys)) (fd : ℤ) :
    fd ∉ (u.step (.move (.closeAll keys))).1.openFds := by
  have howned := h.owned.move hkeys
  rw [mem_openFds_iff (u := (u.step (.move (.closeAll keys))).1) howned, not_or, not_not]
  constructor
  · refine howned.nothing_open hkeys.1 (fun key => ?_) fd
    rw [Gateway.move, ConnectionPool.queue_closeAll]
    split
    · rfl
    · rename_i hkey
      exact ConnectionPool.queue_eq_nil fun hmem => hkey ((hkeys.2.2 key).mpr hmem)
  · rintro ⟨w, hw⟩
    obtain ⟨-, -, call, i, hstage⟩ := h.dialing w fd hw
    rw [hkeys.1 w] at hstage
    cases hstage

/-- **No component ever touches a descriptor of another one, and none is left open.** In every run in which the
kernel gives only numbers that are not open: descriptors are opened when they are free, and used and closed by the
component that has opened them; the open ones are exactly those in the components' variables; and when the
threads have been joined and the pool has been closed, at most a socket of a failed metrics server is open. -/
theorem descriptors_stay_apart {σ ρ : Type} (sys : Subsystems σ ρ) (cfg : ProcessConfig)
    (es : List (Σ c : Component, c.Signal σ)) (hes : Lawful sys cfg es) :
    let r := runProcess sys cfg es
    Respectful (fun _ => none) r.2 ∧
    (∀ fd c, owner r.2 fd = some c ↔ fd ∈ c.openFds (r.1 c)) ∧
    ∀ es' keys lost, es = es' ++ [⟨.upstreams, .move (.closeAll keys)⟩] → Joined r.1 lost →
      ∀ fd, owner r.2 fd ≠ none → lost = some fd := by
  intro r
  obtain ⟨hrespectful, hinv, howner⟩ := owner_iff hes
  refine ⟨hrespectful, howner, ?_⟩
  rintro es' keys lost rfl hjoined fd hopen
  obtain ⟨hes', hlast⟩ := Reactive.obeys_concat.mp hes
  obtain ⟨c, hc⟩ := Option.ne_none_iff_exists'.mp hopen
  have hmem := (howner fd c).mp hc
  cases c with
  | worker id =>
    rcases hjoined.workers id with hid | hid
    · exact absurd hmem (by simp [Component.openFds, r, hid, WorkerThread.openFds])
    · exact absurd hmem (by simp [Component.openFds, r, hid, WorkerThread.openFds])
  | upstreams =>
    have hclosed : r.1 .upstreams
        = (Upstreams.step ((runProcess sys cfg es').1 .upstreams) (.move (.closeAll keys))).1 := by
      simp only [r, runProcess, Reactive.run_concat, stepAll]
      exact Function.update_self _ _ _
    have hbefore : Upstreams.Inv ((runProcess sys cfg es').1 .upstreams) _ := (owner_iff hes').2.1 .upstreams
    rw [hclosed] at hmem
    exact absurd hmem (hbefore.openFds_closeAll hlast.1 fd)
  | checker =>
    obtain ⟨i, hi⟩ := hmem
    rcases hjoined.checker with hphase | hphase
    · exact absurd (hphase.symm.trans hi) (by simp)
    · exact absurd (hphase.symm.trans hi) (by simp)
  | metrics =>
    exact (MetricsDescriptors.mem_openFds_ended hjoined.metrics fd).mp hmem

/-- After a stop the metrics server has closed its socket, and the health checker, which is still in its round, gets
the number next. -/
def numberReused : List (Σ c : Component, c.Signal Unit) :=
  [⟨.checker, .start⟩, ⟨.checker, .step HealthChecker.unresolved⟩, ⟨.metrics, .create { socket := 3 }⟩,
    ⟨.worker 0, .construct 4⟩, ⟨.worker 0, .listen 5⟩, ⟨.metrics, .poll false 0⟩,
    ⟨.checker, .step { HealthChecker.unresolved with resolved := true, socket := 3 }⟩]

def oneProbe : ProcessConfig where
  groups := oneBackend
  maxIdlePerBackend := 1
  healthCheckPath := bytes "/health"
  backends := [HealthChecker.probedBackend]
  metricsPort := 9090

theorem descriptors_stay_apart_numberReused :
    owner (runProcess noRoutes oneProbe numberReused).2 3 = some .checker := by
  have hone : ∀ {fd : ℤ} {target : Unit} (new : ℤ), Call.opened fd target ∈ [Call.opened new ()] → fd = new := by
    simp
  have hes : Lawful noRoutes oneProbe numberReused := by
    refine ⟨⟨trivial, fun fd target hmem => ?_⟩, ⟨trivial, fun fd target hmem => ?_⟩,
      ⟨trivial, fun fd target hmem => ?_⟩, ⟨trivial, fun fd target hmem => ?_⟩,
      ⟨trivial, fun fd target hmem => ?_⟩, ⟨trivial, fun fd target hmem => ?_⟩,
      ⟨trivial, fun fd target hmem => ?_⟩, trivial⟩
    · cases hmem
    · cases hmem
    · obtain rfl := hone 3 hmem
      rfl
    · obtain rfl := hone 4 hmem
      rfl
    · obtain rfl := hone 5 hmem
      rfl
    · exact absurd hmem (List.not_mem_cons_of_ne_of_not_mem (by simp) List.not_mem_nil)
    · obtain rfl := hone 3 hmem
      rfl
  exact ((descriptors_stay_apart noRoutes oneProbe numberReused hes).2.1 3 .checker).mpr ⟨0, rfl⟩

end ApiGateway.Core
