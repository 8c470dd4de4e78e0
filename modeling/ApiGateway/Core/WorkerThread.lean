import ApiGateway.Common.Tenants
import ApiGateway.Core.Dispatch

/-!
# The descriptors of a worker thread

A worker thread from the constructor of its `EventLoop` to the destructor: it opens a descriptor for `epoll` and
a listening socket, runs its event loop, and closes both. Its calls that open, use and close descriptors are the
effects. They are orderly, and what they leave open is what the thread's own variables say
(`WorkerThread.Inv.step`), so that nothing is open after the thread has ended.

If `epoll_create1` fails, or the constructor of `TcpServer` throws, then the exception leaves the thread's
function and ends the process, so that this is left out.

Reference: `Gateway::Worker` and `Gateway::run` in `src/core/Gateway.cpp`, `src/core/EventLoop.cpp`.
-/

namespace ApiGateway.Core

open Descriptors Tenants

/-! ## More about the event loop -/

namespace Loop

variable {σ ρ : Type*} (sys : Subsystems σ ρ) {w : Worker} {log : List Act}

/-- Only a dispatch runs a callback, for the descriptor of its event. -/
theorem dispatching_of_delivered {s : Signal σ} {fd : ℤ} {peer : Peer}
    (hmem : .delivered fd peer ∈ (w.step sys s).2) :
    ∃ ready rest, w.phase = .dispatching (ready :: rest) ∧ ready.fd = fd := by
  cases s with
  | wait result =>
    cases result with
    | none => simp [Worker.step] at hmem
    | some batch =>
      rw [Worker.step] at hmem
      split at hmem <;> simp at hmem
  | dispatch input =>
    rw [Worker.step] at hmem
    split at hmem
    · rename_i ready rest hphase
      refine ⟨ready, rest, hphase, ?_⟩
      rw [Worker.dispatch] at hmem
      split at hmem
      · simp at hmem
      · exact (by simpa using hmem : fd = ready.fd ∧ peer = .listener).1.symm
      · rw [Worker.onEvent] at hmem
        split at hmem
        · simp at hmem
        · rename_i c _
          have hfirst : fd = ready.fd ∧ peer = .client c.serial := by
            simp only [Worker.closeConnection] at hmem
            split at hmem
            · simpa using hmem
            · split at hmem <;> simpa using hmem
          exact hfirst.1.symm
    · simp at hmem
  | accept result =>
    cases result with
    | accepted fd' ip now =>
      rw [Worker.step] at hmem
      split at hmem <;> simp [Worker.onAccept] at hmem
    | interrupted => simp [Worker.step] at hmem
    | failed =>
      rw [Worker.step] at hmem
      split at hmem <;> simp at hmem
  | tick now order =>
    rw [Worker.step] at hmem
    split at hmem <;> simp at hmem
  | close =>
    rw [Worker.step] at hmem
    split at hmem
    · rw [Worker.closeConnection] at hmem
      split at hmem <;> simp at hmem
    · simp at hmem
    · simp at hmem
    · simp at hmem
  | stop order =>
    rw [Worker.step] at hmem
    split at hmem <;> simp at hmem

/-- Callbacks are run for descriptors that are open. -/
theorem Consistent.delivered_open (h : Consistent w log) {s : Signal σ} {fd : ℤ} {peer : Peer}
    (hmem : .delivered fd peer ∈ (w.step sys s).2) : kernel w.listenFd log fd ≠ none := by
  obtain ⟨ready, rest, hphase, rfl⟩ := dispatching_of_delivered sys hmem
  have hregistered := h.registered ready (by rw [hphase]; exact List.mem_cons_self)
  rcases (h.agrees.mem_callbacks_iff _).mp hregistered with hlisten | hconn
  · rw [hlisten, h.listener (by simp [hphase])]
    simp
  · have hne : ready.fd ≠ w.listenFd := fun heq => h.agrees.listenFd (heq ▸ hconn)
    obtain ⟨c, hc⟩ := Finmap.mem_iff.mp hconn
    rw [h.agrees.table _ hne, hc]
    simp

/-- `run` returns by closing the listening socket, and nothing happens afterwards. -/
theorem step_returned {s : Signal σ} (h : (w.step sys s).1.phase = .returned) :
    (w.phase = .returned ∧ w.step sys s = (w, [])) ∨ (w.step sys s).2 = [.closed w.listenFd] := by
  cases s with
  | wait result =>
    cases result with
    | none => exact .inl ⟨h, rfl⟩
    | some batch =>
      rw [Worker.step] at h ⊢
      split at h
      · cases h
      · exact .inl ⟨h, rfl⟩
  | dispatch input =>
    rw [Worker.step] at h ⊢
    split at h
    · rw [Worker.dispatch] at h
      split at h
      · cases h
      · cases h
      · rw [Worker.onEvent] at h
        split at h
        · cases h
        · dsimp only at h
          split at h
          · cases h
          · simp at h
    · exact .inl ⟨h, rfl⟩
  | accept result =>
    cases result with
    | accepted fd' ip now =>
      rw [Worker.step] at h ⊢
      split at h
      · rename_i hphase
        rw [Worker.onAccept] at h
        simp [hphase] at h
      · exact .inl ⟨h, rfl⟩
    | interrupted => exact .inl ⟨h, rfl⟩
    | failed =>
      rw [Worker.step] at h ⊢
      split at h
      · cases h
      · exact .inl ⟨h, rfl⟩
  | tick now order =>
    rw [Worker.step] at h ⊢
    split at h
    · cases h
    · exact .inl ⟨h, rfl⟩
  | close =>
    rw [Worker.step] at h ⊢
    split at h
    · simp at h
    · cases h
    · exact .inr rfl
    · exact .inl ⟨h, rfl⟩
  | stop order =>
    rw [Worker.step] at h ⊢
    split at h
    · cases h
    · exact .inl ⟨h, rfl⟩

/-- **The open descriptors of a worker**: its listening socket until `run` returns, and its connections. -/
structure Tidy (w : Worker) (log : List Act) : Prop where
  consistent : Consistent w log
  listener_closed : w.phase = .returned → kernel w.listenFd log w.listenFd = none

theorem Tidy.kernel_iff (h : Tidy w log) (fd : ℤ) :
    kernel w.listenFd log fd ≠ none ↔ (fd = w.listenFd ∧ w.phase ≠ .returned) ∨ fd ∈ w.conns := by
  by_cases hfd : fd = w.listenFd
  · subst hfd
    have hconn := h.consistent.agrees.listenFd
    by_cases hphase : w.phase = .returned
    · simp [h.listener_closed hphase, hphase, hconn]
    · simp [h.consistent.listener hphase, hphase]
  · rw [h.consistent.agrees.table fd hfd, ← Finmap.lookup_isSome]
    cases w.conns.lookup fd <;> simp [hfd]

theorem Tidy.step (h : Tidy w log) {s : Signal σ} (hs : Permitted w log s) :
    Tidy (w.step sys s).1 (log ++ (w.step sys s).2) := by
  refine ⟨h.consistent.step sys hs, fun hreturned => ?_⟩
  rcases step_returned sys hreturned with ⟨hphase, hstay⟩ | hclosed
  · rw [hstay, List.append_nil]
    exact h.listener_closed hphase
  · rw [listenFd_step, hclosed, kernel_append]
    exact Function.update_self _ _ _

theorem tidy_start (listenFd : ℤ) : Tidy (Worker.start listenFd) [] :=
  ⟨consistent_start listenFd, by simp [Worker.start]⟩

end Loop

/-! ## The thread -/

/-- How far a thread is, with the log of its event loop. -/
inductive WorkerThread where
  | unborn
  /-- The `EventLoop` exists. -/
  | constructed (epollFd : ℤ)
  /-- In `run`, or after it. -/
  | running (epollFd : ℤ) (w : Loop.Worker) (log : List Loop.Act)
  /-- After the destructor of the `EventLoop`. -/
  | destroyed

inductive ThreadSignal (σ : Type*) where
  /-- What `epoll_create1` returns. -/
  | construct (epollFd : ℤ)
  /-- The descriptor of the new `TcpServer`. -/
  | listen (fd : ℤ)
  | signal (s : Loop.Signal σ)
  | destroy

namespace WorkerThread

/-- `epoll_wait` uses the descriptor for `epoll`, and a callback that of its event. -/
def uses (epollFd : ℤ) (acts : List Loop.Act) : List (Call ℤ Unit) :=
  acts.filterMap fun
    | .polled _ => some (.used epollFd)
    | .delivered fd _ => some (.used fd)
    | _ => none

section Step

variable {σ ρ : Type*} (sys : Subsystems σ ρ)

/-- A step of the thread, and its calls: a step of the event loop uses a descriptor before it closes it. -/
def step : WorkerThread → ThreadSignal σ → WorkerThread × List (Call ℤ Unit)
  | .unborn, .construct epollFd => (.constructed epollFd, [.opened epollFd ()])
  | .constructed epollFd, .listen fd => (.running epollFd (.start fd) [], [.opened fd ()])
  | .running epollFd w log, .signal s =>
    let (w, acts) := w.step sys s
    (.running epollFd w (log ++ acts), uses epollFd acts ++ (Loop.calls acts).map forget)
  | .running epollFd w log, .destroy =>
    if w.phase = .returned then (.destroyed, [.closed epollFd]) else (.running epollFd w log, [])
  | t, _ => (t, [])

end Step

/-- The descriptors in the variables of the thread. -/
def openFds : WorkerThread → Set ℤ
  | .unborn => ∅
  | .constructed epollFd => {epollFd}
  | .running epollFd w _ => {fd | (fd = w.listenFd ∧ w.phase ≠ .returned) ∨ fd ∈ w.conns} ∪ {epollFd}
  | .destroyed => ∅

/-- What is assumed of a signal; that `accept` returns a free descriptor is not part of it, since whether it is
free is not this thread's business alone. -/
def Permitted {σ : Type*} : WorkerThread → ThreadSignal σ → Prop
  | .running _ _ _, .signal (.accept _) => True
  | .running _ w log, .signal s => Loop.Permitted w log s
  | _, _ => True

/-- **The calls leave open what the variables say.** -/
structure Inv (t : WorkerThread) (calls : List (Call ℤ Unit)) : Prop where
  opens : Opens calls t.openFds
  tidy : ∀ epollFd w log, t = .running epollFd w log →
    Loop.Tidy w log ∧ Loop.kernel w.listenFd log epollFd = none

theorem inv_unborn : Inv .unborn [] := ⟨opens_nil, by simp⟩

variable {σ ρ : Type*} (sys : Subsystems σ ρ)

/-- A step of the event loop. -/
theorem Inv.signal {epollFd : ℤ} {w : Loop.Worker} {log : List Loop.Act} {calls : List (Call ℤ Unit)}
    (h : Inv (.running epollFd w log) calls) {s : Loop.Signal σ} (hs : Loop.Permitted w log s)
    (hfresh : ∀ fd target, .opened fd target ∈ Loop.calls (w.step sys s).2 → fd ≠ epollFd) :
    let acts := (w.step sys s).2
    Inv (.running epollFd (w.step sys s).1 (log ++ acts))
      (calls ++ (uses epollFd acts ++ (Loop.calls acts).map forget)) := by
  intro acts
  obtain ⟨htidy, hepoll⟩ := h.tidy _ _ _ rfl
  have htidy' : Loop.Tidy (w.step sys s).1 (log ++ acts) := htidy.step sys hs
  have hlisten : (w.step sys s).1.listenFd = w.listenFd := Loop.listenFd_step sys w s
  have hopens : Opens calls ({fd | Loop.kernel w.listenFd log fd ≠ none} ∪ {epollFd}) :=
    h.opens.congr fun fd => by simp only [openFds, Set.mem_union, Set.mem_ofPred_eq, htidy.kernel_iff]
  have huses : Opens (calls ++ uses epollFd acts)
      ({fd | Loop.kernel w.listenFd log fd ≠ none} ∪ {epollFd}) := by
    refine hopens.uses fun call hcall => ?_
    obtain ⟨act, hact, heq⟩ := List.mem_filterMap.mp hcall
    cases act with
    | polled fds => exact ⟨epollFd, .inr rfl, (Option.some.inj heq).symm⟩
    | delivered fd peer =>
      exact ⟨fd, .inl (htidy.consistent.delivered_open sys hact), (Option.some.inj heq).symm⟩
    | _ => cases heq
  -- the rest of the calls is orderly in the table of the event loop
  have horderly : Orderly (Loop.kernel w.listenFd log) (Loop.calls acts) := by
    have hall := htidy'.consistent.agrees.orderly
    rw [hlisten] at hall
    exact ((orderly_filterMap_append _ _ log acts).mp hall).2
  obtain ⟨hnew, hrest⟩ := huses.part (by simpa using hepoll) horderly fun fd target hmem =>
    hfresh fd target hmem
  rw [← Loop.kernel_append, ← hlisten] at hnew hrest
  rw [← List.append_assoc]
  refine ⟨hnew.congr fun fd => ?_, ?_⟩
  · simp only [openFds, Set.mem_union, Set.mem_ofPred_eq, htidy'.kernel_iff]
  · rintro _ _ _ ⟨⟩
    exact ⟨htidy', hrest epollFd rfl⟩

/-- Numbers that are free are not among the open ones. -/
theorem Inv.notMem {t : WorkerThread} {calls : List (Call ℤ Unit)} (h : Inv t calls) {fd : ℤ}
    (hfree : after (fun _ => none) calls fd = none) : fd ∉ t.openFds :=
  fun hmem => (h.opens.open_iff fd).mpr hmem hfree

/-- **A step of the thread.** -/
theorem Inv.step {t : WorkerThread} {calls : List (Call ℤ Unit)} (h : Inv t calls) {e : ThreadSignal σ}
    (he : Permitted t e)
    (hfree : ∀ fd target, .opened fd target ∈ (t.step sys e).2 → after (fun _ => none) calls fd = none) :
    Inv (t.step sys e).1 (calls ++ (t.step sys e).2) := by
  have hstay : Inv t (calls ++ []) := by rwa [List.append_nil]
  cases t with
  | unborn =>
    cases e with
    | construct epollFd =>
      exact ⟨(h.opens.opened (by simp [openFds]) ()).congr (by simp [WorkerThread.step, openFds]),
        by simp [WorkerThread.step]⟩
    | _ => exact hstay
  | constructed epollFd =>
    cases e with
    | listen fd =>
      have hne : fd ≠ epollFd := h.notMem (hfree fd () List.mem_cons_self)
      refine ⟨(h.opens.opened hne ()).congr fun fd' => ?_, ?_⟩
      · simp [WorkerThread.step, openFds, Loop.Worker.start, Finmap.notMem_empty, or_comm]
      · rintro _ _ _ ⟨⟩
        have hother : Loop.listening fd epollFd = none := Function.update_of_ne hne.symm _ _
        exact ⟨Loop.tidy_start fd, hother⟩
    | _ => exact hstay
  | running epollFd w log =>
    cases e with
    | signal s =>
      have hopened : ∀ fd peer, .opened fd peer ∈ Loop.calls (w.step sys s).2 →
          after (fun _ => none) calls fd = none := fun fd peer hmem =>
        hfree fd () (List.mem_append_right _ (List.mem_map_of_mem (f := forget) hmem))
      have hepoll : ∀ fd peer, .opened fd peer ∈ Loop.calls (w.step sys s).2 → fd ≠ epollFd :=
        fun fd peer hmem heq => h.notMem (hopened fd peer hmem) (.inr heq)
      by_cases haccept : ∃ fd ip now, s = .accept (.accepted fd ip now)
      · obtain ⟨fd, ip, now, rfl⟩ := haccept
        by_cases hphase : ∃ rest, w.phase = .accepting rest
        · obtain ⟨rest, hphase⟩ := hphase
          refine h.signal sys ?_ hepoll
          have hnot := h.notMem (hopened fd (.client w.accepted) (by
            simp [Loop.Worker.step, hphase, Loop.Worker.onAccept, Loop.calls, Loop.Act.call]))
          by_contra hopen
          exact hnot (.inl (((h.tidy _ _ _ rfl).1.kernel_iff fd).mp hopen))
        · have hidle : w.step sys (.accept (.accepted fd ip now)) = (w, []) := by
            rw [Loop.Worker.step]
            split
            · exact absurd ⟨_, ‹_›⟩ hphase
            · rfl
          simpa [WorkerThread.step, hidle, uses, Loop.calls] using h
      · refine h.signal sys ?_ hepoll
        cases s with
        | accept result =>
          cases result with
          | accepted fd ip now => exact absurd ⟨fd, ip, now, rfl⟩ haccept
          | _ => trivial
        | _ => exact he
    | destroy =>
      rw [WorkerThread.step]
      split
      · rename_i hphase
        have htidy := (h.tidy _ _ _ rfl).1
        refine ⟨(h.opens.closed (.inr rfl)).congr fun fd => ?_, by simp⟩
        have hconns := htidy.consistent.left hphase
        simp [openFds, hphase, hconns]
      · exact hstay
    | _ => exact hstay
  | destroyed => exact hstay

end WorkerThread

end ApiGateway.Core
