import ApiGateway.Common.Reactive

/-!
# Starting and stopping

`Gateway::run` starts the threads and joins them again; `Gateway::stop` is called in a signal handler, on whatever
thread the signal is delivered to, and joins the health checker itself. A thread with a handler on its stack does not
move on before the handler has returned. The loops of the threads are taken as a whole: a step of such a thread is
the end of an iteration, or of what comes after the loop.

A stop takes effect once at most, and not before `run` has set `running_`: a signal that is handled earlier is lost.
No thread is joined by two others at a time, and the pool is closed when all threads are done (`shutdown_safe`). One
signal is fatal: when the health checker's own thread handles it, it tries to join itself.

A thread may fail to start. The exception leaves `run`, `main` returns, and `g_gateway` is destroyed: `~Gateway` stops
the gateway, and ends the process if it finds `metricsThread_` unjoined. So only the health checker's thread and the
metrics server's can fail in an orderly way.

Reference: `Gateway::run`, `Gateway::stop` and `Gateway::~Gateway` in `src/core/Gateway.cpp`, `HealthChecker::start` and
`HealthChecker::stop` in `src/network/HealthChecker.cpp`, `HealthChecker::~HealthChecker` in
`include/network/HealthChecker.hpp`, `src/main.cpp`.
-/

namespace ApiGateway.Core.Lifecycle

/-! ## The model -/

inductive Thread where
  | main
  | worker (i : ℕ)
  | metrics
  | checker
deriving DecidableEq, Repr

/-- A thread with a loop on a flag. -/
inductive Looping where
  | unstarted
  | looping
  /-- Behind the loop. -/
  | leaving
  | finished
deriving DecidableEq, Repr

/-- Where the main thread is in `run`: before this. -/
inductive RunAt where
  | setRunning
  | setChecking
  | startChecker
  /-- The thread of the checker runs, but is not in its `thread_` yet. -/
  | assignChecker
  | startMetrics
  | startWorkers (i : ℕ)
  | joinWorkers (i : ℕ)
  | joinMetrics
  | unsetChecking
  | joinChecker
  | closeAll
  | returned
deriving DecidableEq, Repr

/-- Where a signal handler is in `stop`. -/
inductive StopAt where
  | exchange
  | unsetChecking
  | joinChecker
deriving DecidableEq, Repr

/-- Where the main thread is in `~Gateway` when an exception has left `run`: before this. -/
inductive DestroyAt where
  | stop
  /-- The destructors of `metricsThread_` and `workerThreads_`. -/
  | destroyThreads
  /-- `stop` in the destructor of the health checker. -/
  | unsetChecking
  | joinChecker
  | exited
deriving DecidableEq, Repr

inductive Act where
  /-- `stop` has changed `running_`. -/
  | stopped (t : Thread)
  | threw (t : Thread)
  /-- The constructor of the thread has thrown. -/
  | notStarted (t : Thread)
  | closedAll
deriving DecidableEq, Repr

inductive Move where
  | step (t : Thread)
  /-- A signal is delivered to a thread. -/
  | signal (t : Thread)
  /-- An exception leaves the loop of a thread; in the main thread, the constructor of a thread throws. -/
  | throws (t : Thread)
deriving DecidableEq, Repr

structure Life where
  /-- `Gateway::running_`. -/
  running : Bool := false
  /-- `HealthChecker::running_`. -/
  checking : Bool := false
  /-- `thread_.joinable()` of the health checker. -/
  joinable : Bool := false
  run : RunAt := .setRunning
  /-- An exception has left `run`, which stays where it was. -/
  destroying : Option DestroyAt := none
  loops : Thread → Looping := fun _ => .unstarted
  /-- The handlers on the stack of a thread. -/
  handlers : Thread → List StopAt := fun _ => []
  /-- `std::terminate` has been called. -/
  terminated : Bool := false

namespace Looping

/-- The next test of the flag, or the end. -/
def next (flag : Bool) : Looping → Looping
  | unstarted => unstarted
  | looping => if flag then looping else leaving
  | leaving => finished
  | finished => finished

end Looping

/-- The thread that `run` is about to start. -/
def RunAt.starting (n : ℕ) : RunAt → Option Thread
  | .startChecker => some .checker
  | .startMetrics => some .metrics
  | .startWorkers i => if i < n then some (.worker i) else none
  | _ => none

namespace Life

def setLoop (s : Life) (t : Thread) (l : Looping) : Life := { s with loops := Function.update s.loops t l }

def setHandlers (s : Life) (t : Thread) (l : List StopAt) : Life :=
  { s with handlers := Function.update s.handlers t l }

/-- The thread exists and has not returned. -/
def alive (s : Life) : Thread → Bool
  | .main => s.run ≠ .returned && s.destroying ≠ some .exited
  | t => s.loops t = .looping || s.loops t = .leaving

/-- The flag of a loop. -/
def flag (s : Life) : Thread → Bool
  | .checker => s.checking
  | _ => s.running

/-- `stop`, in a handler on thread `t` above the handlers `rest`, or in `~Gateway`. Joining oneself is an exception,
and there is nobody to catch it. -/
def stop (s : Life) (t : Thread) (rest : List StopAt) : StopAt → Life × List Act
  | .exchange =>
    if s.running then ({ s with running := false }.setHandlers t (.unsetChecking :: rest), [.stopped t])
    else (s.setHandlers t rest, [])
  | .unsetChecking => ({ s with checking := false }.setHandlers t (.joinChecker :: rest), [])
  | .joinChecker =>
    if s.joinable then
      if t = .checker then ({ s with terminated := true }, [])
      else if s.loops .checker = .finished then ({ s with joinable := false }.setHandlers t rest, [])
      else (s, [])
    else (s.setHandlers t rest, [])

/-- `run`, with `n` workers. -/
def goOn (n : ℕ) (s : Life) : Life × List Act :=
  match s.run with
  | .setRunning => ({ s with running := true, run := .setChecking }, [])
  | .setChecking => ({ s with checking := true, run := .startChecker }, [])
  | .startChecker => ({ s with run := .assignChecker }.setLoop .checker .looping, [])
  | .assignChecker => ({ s with joinable := true, run := .startMetrics }, [])
  | .startMetrics => ({ s with run := .startWorkers 0 }.setLoop .metrics .looping, [])
  | .startWorkers i =>
    if i < n then ({ s with run := .startWorkers (i + 1) }.setLoop (.worker i) .looping, [])
    else ({ s with run := .joinWorkers 0 }, [])
  | .joinWorkers i =>
    if i < n then
      if s.loops (.worker i) = .finished then ({ s with run := .joinWorkers (i + 1) }, []) else (s, [])
    else ({ s with run := .joinMetrics }, [])
  | .joinMetrics => if s.loops .metrics = .finished then ({ s with run := .unsetChecking }, []) else (s, [])
  | .unsetChecking => ({ s with checking := false, run := .joinChecker }, [])
  | .joinChecker =>
    if s.joinable then
      if s.loops .checker = .finished then ({ s with joinable := false, run := .closeAll }, []) else (s, [])
    else ({ s with run := .closeAll }, [])
  | .closeAll => ({ s with run := .returned }, [.closedAll])
  | .returned => (s, [])

/-- `~Gateway` after an exception in `run`. No thread has been joined then, and the destructor of a thread that has
been started and not joined ends the process; the metrics thread comes first. -/
def destroy (s : Life) : DestroyAt → Life × List Act
  | .stop => ({ s with destroying := some .destroyThreads }.setHandlers .main [.exchange], [])
  | .destroyThreads =>
    if s.loops .metrics = .unstarted then ({ s with destroying := some .unsetChecking }, [])
    else ({ s with terminated := true }, [])
  | .unsetChecking => ({ s with checking := false, destroying := some .joinChecker }, [])
  | .joinChecker =>
    if s.joinable then
      if s.loops .checker = .finished then ({ s with joinable := false, destroying := some .exited }, [])
      else (s, [])
    else ({ s with destroying := some .exited }, [])
  | .exited => (s, [])

/-- A step of a thread that no handler interrupts. -/
def advance (n : ℕ) (s : Life) : Thread → Life × List Act
  | .main =>
    match s.destroying with
    | none => s.goOn n
    | some d => s.destroy d
  | t => (s.setLoop t ((s.loops t).next (s.flag t)), [])

/-- What happens when an exception leaves the loop of a thread: the metrics server catches it, a worker and the health
checker do not. If a thread cannot be started, `main` catches the exception and returns. -/
def throw (n : ℕ) (s : Life) : Thread → Life × List Act
  | .main =>
    match s.destroying, s.run.starting n with
    | none, some t => ({ s with destroying := some .stop }, [.notStarted t])
    | _, _ => (s, [])
  | .worker i => ({ s with terminated := true }, [.threw (.worker i)])
  | .metrics => (s.setLoop .metrics .leaving, [.threw .metrics])
  | .checker => ({ s with terminated := true }, [.threw .checker])

def step (n : ℕ) (s : Life) (e : Move) : Life × List Act :=
  if s.terminated then (s, [])
  else
    match e with
    | .step t =>
      match s.handlers t with
      | h :: rest => s.stop t rest h
      | [] => s.advance n t
    | .signal t => if s.alive t then (s.setHandlers t (.exchange :: s.handlers t), []) else (s, [])
    | .throws t => if s.alive t && s.handlers t = [] then s.throw n t else (s, [])

end Life

/-! ## The clock of `run` -/

namespace RunAt

/-- The number of steps that `run` has made. -/
def clock (n : ℕ) : RunAt → ℕ
  | setRunning => 0
  | setChecking => 1
  | startChecker => 2
  | assignChecker => 3
  | startMetrics => 4
  | startWorkers i => 5 + i
  | joinWorkers i => 6 + n + i
  | joinMetrics => 7 + 2 * n
  | unsetChecking => 8 + 2 * n
  | joinChecker => 9 + 2 * n
  | closeAll => 10 + 2 * n
  | returned => 11 + 2 * n

/-- The variable of the loops over the workers. -/
def index : RunAt → ℕ
  | startWorkers i => i
  | joinWorkers i => i
  | _ => 0

end RunAt

/-- The number of steps of the main thread since an exception has left `run`. -/
def Life.fall (s : Life) : ℕ :=
  match s.destroying with
  | none => 0
  | some .stop => 1
  | some .destroyThreads => 2
  | some .unsetChecking => 3
  | some .joinChecker => 4
  | some .exited => 5

/-- When a thread is started. -/
def startTime (n : ℕ) : Thread → Option ℕ
  | .main => none
  | .worker i => if i < n then some (5 + i) else none
  | .metrics => some 4
  | .checker => some 2

theorem startTime_cases {n : ℕ} {t : Thread} {k : ℕ} (h : startTime n t = some k) :
    k = 2 ∨ 4 ≤ k ∧ k ≤ 4 + n := by
  cases t with
  | main => cases h
  | worker i =>
    rw [startTime, Option.ite_none_right_eq_some, Option.some.injEq] at h
    omega
  | metrics =>
    rw [startTime, Option.some.injEq] at h
    omega
  | checker =>
    rw [startTime, Option.some.injEq] at h
    omega

/-- Threads are started one at a time. -/
theorem eq_of_startTime {n : ℕ} {t u : Thread} {k : ℕ} (ht : startTime n t = some k) (hu : startTime n u = some k) :
    u = t := by
  cases t <;> cases u <;>
    simp only [startTime, Option.ite_none_right_eq_some, Option.some.injEq, reduceCtorEq] at ht hu
  case worker.worker i j =>
    obtain rfl : i = j := by omega
    rfl
  case metrics.metrics => rfl
  case checker.checker => rfl
  all_goals omega

theorem startTime_of_starting {n : ℕ} {pos : RunAt} {t : Thread} (h : pos.starting n = some t) :
    startTime n t = some (pos.clock n) := by
  cases pos with
  | startChecker =>
    rw [← Option.some.inj h]
    rfl
  | startMetrics =>
    rw [← Option.some.inj h]
    rfl
  | startWorkers i =>
    rw [RunAt.starting, Option.ite_none_right_eq_some, Option.some.injEq] at h
    rw [← h.2]
    exact if_pos h.1
  | _ => cases h

/-- When a thread is joined. -/
def joinTime (n : ℕ) : Thread → Option ℕ
  | .main => none
  | .worker i => if i < n then some (6 + n + i) else none
  | .metrics => some (7 + 2 * n)
  | .checker => some (9 + 2 * n)

theorem joinTime_cases {n : ℕ} {t : Thread} {k : ℕ} (h : joinTime n t = some k) :
    (∃ i, i < n ∧ t = .worker i ∧ k = 6 + n + i) ∨ t = .metrics ∧ k = 7 + 2 * n ∨ t = .checker ∧ k = 9 + 2 * n := by
  cases t with
  | main => cases h
  | worker i =>
    rw [joinTime, Option.ite_none_right_eq_some, Option.some.injEq] at h
    exact .inl ⟨i, h.1, rfl, h.2.symm⟩
  | metrics => exact .inr (.inl ⟨rfl, (Option.some.inj h).symm⟩)
  | checker => exact .inr (.inr ⟨rfl, (Option.some.inj h).symm⟩)

/-- A step at which no thread is started. -/
theorem startTime_ne {n c : ℕ} (hc : c ≠ 2) (hc' : c < 4 ∨ 4 + n < c) (t : Thread) : startTime n t ≠ some c := by
  intro h
  have hcases := startTime_cases h
  omega

/-- A step at which no thread is joined. -/
theorem joinTime_ne {n c : ℕ} (hc : c < 6 + n ∨ 6 + 2 * n ≤ c ∧ c ≠ 7 + 2 * n ∧ c ≠ 9 + 2 * n) (t : Thread) :
    joinTime n t ≠ some c := by
  intro h
  rcases joinTime_cases h with ⟨i, hi, -, hk⟩ | ⟨-, hk⟩ | ⟨-, hk⟩ <;> omega

/-- The threads that run are those that have been started, and a thread that has been joined is done. -/
structure Placed (n c : ℕ) (loops : Thread → Looping) : Prop where
  started : ∀ t, loops t ≠ .unstarted ↔ ∃ k, startTime n t = some k ∧ k < c
  joined : ∀ t k, joinTime n t = some k → k < c → loops t = .finished

namespace Placed

variable {n c : ℕ} {loops : Thread → Looping}

/-- `run` makes a step and starts no thread. -/
theorem tick (h : Placed n c loops) (hstart : ∀ t, startTime n t ≠ some c)
    (hjoin : ∀ t, joinTime n t = some c → loops t = .finished) : Placed n (c + 1) loops where
  started t := by
    rw [h.started t]
    refine exists_congr fun k => and_congr_right fun hk => ?_
    have hne : k ≠ c := fun heq => hstart t (heq ▸ hk)
    omega
  joined t k hk hlt := by
    rcases Nat.lt_succ_iff_lt_or_eq.mp hlt with hlt | rfl
    · exact h.joined t k hk hlt
    · exact hjoin t hk

/-- `run` starts a thread. -/
theorem start (h : Placed n c loops) {t : Thread} (hstart : ∀ u, startTime n u = some c ↔ u = t)
    (hjoin : ∀ u k, joinTime n u = some k → c < k) :
    Placed n (c + 1) (Function.update loops t .looping) where
  started u := by
    by_cases hu : u = t
    · rw [hu, Function.update_self]
      exact iff_of_true (by simp) ⟨c, (hstart t).mpr rfl, Nat.lt_succ_self c⟩
    · rw [Function.update_of_ne hu, h.started u]
      refine exists_congr fun k => and_congr_right fun hk => ?_
      have hne : k ≠ c := fun heq => hu ((hstart u).mp (heq ▸ hk))
      omega
  joined u k hk hlt := absurd (hjoin u k hk) (by omega)

/-- A thread that is running goes on. -/
theorem loop (h : Placed n c loops) {t : Thread} {l : Looping} (hl : l = .unstarted ↔ loops t = .unstarted)
    (hfinished : loops t = .finished → l = .finished) : Placed n c (Function.update loops t l) where
  started u := by
    rw [← h.started u]
    by_cases hu : u = t
    · rw [hu, Function.update_self, ne_eq, hl]
    · rw [Function.update_of_ne hu]
  joined u k hk hlt := by
    by_cases hu : u = t
    · rw [hu, Function.update_self]
      exact hfinished (hu ▸ h.joined u k hk hlt)
    · rw [Function.update_of_ne hu]
      exact h.joined u k hk hlt

end Placed

/-! ## The invariant -/

def Act.isStopped : Act → Bool
  | .stopped _ => true
  | _ => false

/-- What ends the process at once: an exception that leaves the loop of a worker or of the health checker, a worker
that cannot be started, and a stop that is handled on the health checker's thread. -/
def Act.isFatal : Act → Bool
  | .threw (.worker _) => true
  | .threw .checker => true
  | .notStarted (.worker _) => true
  | .stopped .checker => true
  | _ => false

theorem Act.isFatal_iff {a : Act} : a.isFatal = true ↔
    (∃ i, a = .threw (.worker i)) ∨ a = .threw .checker ∨ (∃ i, a = .notStarted (.worker i)) ∨
      a = .stopped .checker := by
  rcases a with t | t | t | _
  all_goals try cases t
  all_goals simp [Act.isFatal]

structure Inv (n : ℕ) (s : Life) (log : List Act) : Prop where
  placed : Placed n (s.run.clock n) s.loops
  index : s.run.index ≤ n
  /-- A worker leaves its loop when the gateway has been stopped. -/
  left : ∀ i, s.loops (.worker i) = .leaving ∨ s.loops (.worker i) = .finished → s.running = false
  unset : s.run = .setRunning → s.running = false
  stops : log.countP Act.isStopped = if s.run = .setRunning ∨ s.running = true then 0 else 1
  alive : ∀ t, s.handlers t ≠ [] → t = .main ∨ s.loops t = .looping ∨ s.loops t = .leaving
  stopping : ∀ t, ∀ h ∈ s.handlers t, h ≠ .exchange → .stopped t ∈ log
  /-- Behind the loop over the workers the gateway has been stopped, and `stop` is not on the stack; so it is when
  `~Gateway` has called `stop`. -/
  past : 7 + 2 * n ≤ s.run.clock n ∨ 3 ≤ s.fall → s.running = false ∧ ∀ h ∈ s.handlers .main, h = .exchange
  quitting : s.fall = 2 → s.running = false ∨ .exchange ∈ s.handlers .main
  notStarted : 0 < s.fall → ∃ t, startTime n t = some (s.run.clock n) ∧ .notStarted t ∈ log
  /-- `~Gateway` comes to the health checker only if there is no other thread. -/
  alone : 3 ≤ s.fall → s.run.clock n ≤ 4
  released : s.fall = 5 → s.joinable = false
  joinable : s.joinable = true → 4 ≤ s.run.clock n
  checker : 4 ≤ s.run.clock n → s.joinable = true ∨ s.loops .checker = .finished
  waiting : ∀ t, .joinChecker ∈ s.handlers t → s.checking = false
  unchecked : 9 + 2 * n ≤ s.run.clock n ∨ 4 ≤ s.fall → s.checking = false
  terminated : s.terminated = true → ∃ a ∈ log, a.isFatal = true

theorem inv_start (n : ℕ) : Inv n {} [] where
  placed := ⟨fun t => by simp [RunAt.clock], fun t k _ hlt => absurd hlt (Nat.not_lt_zero k)⟩
  index := Nat.zero_le n
  left i h := rfl
  unset _ := rfl
  stops := rfl
  alive t h := absurd rfl h
  stopping t h hmem := by cases hmem
  past h := ⟨rfl, by simp⟩
  quitting h := .inl rfl
  notStarted h := absurd h (Nat.lt_irrefl 0)
  alone h := Nat.zero_le 4
  released h := rfl
  joinable h := by cases h
  checker h := by simp [RunAt.clock] at h
  waiting t h := rfl
  unchecked h := rfl
  terminated h := by cases h

namespace Inv

variable {n : ℕ} {s s' : Life} {log acts : List Act}

/-- Threads are started after the flags have been set. -/
theorem started_late (h : Inv n s log) {t : Thread} (ht : s.loops t ≠ .unstarted) :
    s.run ≠ .setRunning ∧ s.run ≠ .setChecking := by
  obtain ⟨k, hk, hlt⟩ := (h.placed.started t).mp ht
  have hcases := startTime_cases hk
  constructor
  · intro hrun
    rw [hrun, RunAt.clock] at hlt
    omega
  · intro hrun
    rw [hrun, RunAt.clock] at hlt
    omega

/-- **A step of `run`**, with nothing on the stack: what is left to show is about the clock and what the step
changes. -/
theorem tick (h : Inv n s log) (hmain : s.handlers .main = []) (hinside : s'.fall = 0)
    (hclock : s'.run.clock n = s.run.clock n + 1) (hindex : s'.run.index ≤ n)
    (hplaced : Placed n (s.run.clock n + 1) s'.loops)
    (hloops : ∀ t, s.loops t ≠ .unstarted → s'.loops t = s.loops t)
    (hstarted : ∀ t, s.loops t = .unstarted → s'.loops t = .unstarted ∨ s'.loops t = .looping)
    (hrunning : s'.running = s.running ∧ s.run ≠ .setRunning ∨ s.run = .setRunning ∧ s'.running = true)
    (hstopped : 7 + 2 * n ≤ s'.run.clock n → s'.running = false)
    (hjoinable : s'.joinable = true → 4 ≤ s'.run.clock n)
    (hchecker : 4 ≤ s'.run.clock n → s'.joinable = true ∨ s'.loops .checker = .finished)
    (hchecking : s'.checking = false ∨ s'.checking = s.checking ∧ s.run.clock n < 8 + 2 * n ∨ s.run = .setChecking)
    (hhandlers : s'.handlers = s.handlers) (hterminated : s'.terminated = s.terminated)
    (hacts : ∀ a ∈ acts, a.isStopped = false) : Inv n s' (log ++ acts) where
  placed := hclock ▸ hplaced
  index := hindex
  left i hi := by
    have hbefore : s.loops (.worker i) ≠ .unstarted := by
      intro hun
      rcases hstarted _ hun with heq | heq <;> simp [heq] at hi
    rw [hloops _ hbefore] at hi
    rcases hrunning with ⟨heq, -⟩ | ⟨hrun, -⟩
    · rw [heq]
      exact h.left i hi
    · exact absurd hrun (h.started_late hbefore).1
  unset hrun := by
    rw [hrun] at hclock
    cases hclock
  stops := by
    have hrun : s'.run ≠ .setRunning := by
      intro hrun
      rw [hrun] at hclock
      cases hclock
    have hnone : acts.countP Act.isStopped = 0 := List.countP_eq_zero.mpr fun a ha => by simp [hacts a ha]
    rw [List.countP_append, hnone, Nat.add_zero, h.stops]
    rcases hrunning with ⟨heq, hne⟩ | ⟨heq, htrue⟩
    · simp [hrun, hne, heq]
    · simp [heq, htrue]
  alive t ht := by
    rw [hhandlers] at ht
    have halive := h.alive t ht
    refine halive.imp_right fun hloop => ?_
    have hne : s.loops t ≠ .unstarted := by rcases hloop with heq | heq <;> simp [heq]
    rwa [hloops t hne]
  stopping t hh hmem hne := by
    rw [hhandlers] at hmem
    exact List.mem_append_left _ (h.stopping t hh hmem hne)
  past hpast := by
    refine ⟨hstopped (hpast.resolve_right (by omega)), ?_⟩
    rw [hhandlers, hmain]
    simp
  quitting hfall := by omega
  notStarted hfall := by omega
  alone hfall := by omega
  released hfall := by omega
  joinable := hjoinable
  checker := hchecker
  waiting t ht := by
    rw [hhandlers] at ht
    rcases hchecking with hfalse | ⟨heq, -⟩ | hrun
    · exact hfalse
    · rw [heq]
      exact h.waiting t ht
    · -- no other thread has been started
      rcases h.alive t (List.ne_nil_of_mem ht) with rfl | hloop
      · rw [hmain] at ht
        cases ht
      · have hne : s.loops t ≠ .unstarted := by rcases hloop with heq | heq <;> simp [heq]
        exact absurd hrun (h.started_late hne).2
  unchecked hle := by
    rcases hchecking with hfalse | ⟨-, hlt⟩ | hrun
    · exact hfalse
    · omega
    · rw [hclock, hrun, RunAt.clock] at hle
      omega
  terminated hterm := by
    rw [hterminated] at hterm
    exact (h.terminated hterm).imp fun _ ha => ⟨List.mem_append_left _ ha.1, ha.2⟩

/-- A step of `run` that starts no thread. -/
theorem tick_quiet (h : Inv n s log) (hmain : s.handlers .main = []) (hinside : s'.fall = 0)
    (hclock : s'.run.clock n = s.run.clock n + 1) (hindex : s'.run.index ≤ n)
    (hstart : ∀ t, startTime n t ≠ some (s.run.clock n))
    (hjoin : ∀ t, joinTime n t = some (s.run.clock n) → s.loops t = .finished) (hloops : s'.loops = s.loops)
    (hrunning : s'.running = s.running ∧ s.run ≠ .setRunning ∨ s.run = .setRunning ∧ s'.running = true)
    (hstopped : 7 + 2 * n ≤ s'.run.clock n → s'.running = false)
    (hjoinable : s'.joinable = true → 4 ≤ s'.run.clock n)
    (hchecker : 4 ≤ s'.run.clock n → s'.joinable = true ∨ s'.loops .checker = .finished)
    (hchecking : s'.checking = false ∨ s'.checking = s.checking ∧ s.run.clock n < 8 + 2 * n ∨ s.run = .setChecking)
    (hhandlers : s'.handlers = s.handlers) (hterminated : s'.terminated = s.terminated)
    (hacts : ∀ a ∈ acts, a.isStopped = false) : Inv n s' (log ++ acts) := by
  refine h.tick hmain hinside hclock hindex ?_ ?_ ?_ hrunning hstopped hjoinable hchecker hchecking hhandlers
    hterminated hacts
  · rw [hloops]
    exact h.placed.tick hstart hjoin
  · intro t _
    rw [hloops]
  · intro t ht
    rw [hloops]
    exact .inl ht

/-- A step of `run` before the checker has been assigned, or when it is. -/
theorem tick_early (h : Inv n s log) (hmain : s.handlers .main = []) (hinside : s'.fall = 0)
    (hearly : s.run.clock n < 4) (hnone : s.run.clock n ≠ 2) (hclock : s'.run.clock n = s.run.clock n + 1)
    (hindex : s'.run.index ≤ n) (hloops : s'.loops = s.loops)
    (hrunning : s'.running = s.running ∧ s.run ≠ .setRunning ∨ s.run = .setRunning ∧ s'.running = true)
    (hjoinable : s'.joinable = decide (4 ≤ s'.run.clock n))
    (hchecking : s'.checking = s.checking ∨ s.run = .setChecking)
    (hhandlers : s'.handlers = s.handlers) (hterminated : s'.terminated = s.terminated) :
    Inv n s' (log ++ []) := by
  refine h.tick_quiet hmain hinside hclock hindex (startTime_ne hnone (.inl hearly)) ?_ hloops hrunning ?_ ?_ ?_ ?_
    hhandlers hterminated (by simp)
  · exact fun t ht => absurd ht (joinTime_ne (.inl (by omega)) t)
  · intro hle
    omega
  · exact fun hj => of_decide_eq_true (hjoinable ▸ hj)
  · exact fun hle => .inl (hjoinable ▸ decide_eq_true hle)
  · exact .inr (hchecking.imp_left fun heq => ⟨heq, by omega⟩)

/-- A step of `run` that starts a thread. -/
theorem tick_start (h : Inv n s log) (hmain : s.handlers .main = []) (hinside : s'.fall = 0) {t : Thread}
    (hstarting : s.run.starting n = some t) (hclock : s'.run.clock n = s.run.clock n + 1) (hindex : s'.run.index ≤ n)
    (hloops : s'.loops = Function.update s.loops t .looping)
    (hrunning : s'.running = s.running) (hjoinable : s'.joinable = s.joinable) (hchecking : s'.checking = s.checking)
    (hhandlers : s'.handlers = s.handlers) (hterminated : s'.terminated = s.terminated) :
    Inv n s' (log ++ []) := by
  have htime := startTime_of_starting hstarting
  have hcases := startTime_cases htime
  have hstart : ∀ u, startTime n u = some (s.run.clock n) ↔ u = t :=
    fun u => ⟨eq_of_startTime htime, fun heq => heq ▸ htime⟩
  have hjoin : ∀ u k, joinTime n u = some k → s.run.clock n < k := by
    intro u k hk
    have hlate := joinTime_cases hk
    omega
  have hlate : s.run ≠ .setRunning := by
    intro hrun
    rw [hrun] at hstarting
    cases hstarting
  have hun : s.loops t = .unstarted := by
    by_contra hne
    obtain ⟨k, hk, hlt⟩ := (h.placed.started t).mp hne
    rw [htime, Option.some.injEq] at hk
    omega
  have hother : ∀ u, s.loops u ≠ .unstarted → s'.loops u = s.loops u := by
    intro u hu
    rw [hloops, Function.update_of_ne]
    rintro rfl
    exact hu hun
  refine h.tick hmain hinside hclock hindex ?_ hother ?_ (.inl ⟨hrunning, hlate⟩) ?_ ?_ ?_
    (.inr (.inl ⟨hchecking, by omega⟩)) hhandlers hterminated (by simp)
  · rw [hloops]
    exact h.placed.start hstart hjoin
  · intro u hu
    rw [hloops]
    by_cases heq : u = t
    · rw [heq, Function.update_self]
      exact .inr rfl
    · rw [Function.update_of_ne heq]
      exact .inl hu
  · intro hle
    omega
  · intro hj
    rw [hjoinable] at hj
    have hle := h.joinable hj
    omega
  · intro hle
    rw [hjoinable]
    refine (h.checker (by omega)).imp_right fun hfinished => ?_
    rw [hother _ (by simp [hfinished]), hfinished]

/-- A step of `run` when all threads have been started. -/
theorem tick_late (h : Inv n s log) (hmain : s.handlers .main = []) (hinside : s'.fall = 0)
    (hlate : 5 + n ≤ s.run.clock n) (hclock : s'.run.clock n = s.run.clock n + 1) (hindex : s'.run.index ≤ n)
    (hjoin : ∀ t, joinTime n t = some (s.run.clock n) → s.loops t = .finished) (hloops : s'.loops = s.loops)
    (hrunning : s'.running = s.running) (hstopped : 6 + 2 * n ≤ s.run.clock n → s.running = false)
    (hjoinable : s'.joinable = true ∨ s.loops .checker = .finished)
    (hchecking : s'.checking = false ∨ s'.checking = s.checking ∧ s.run.clock n < 8 + 2 * n)
    (hhandlers : s'.handlers = s.handlers) (hterminated : s'.terminated = s.terminated)
    (hacts : ∀ a ∈ acts, a.isStopped = false) : Inv n s' (log ++ acts) := by
  have hrun : s.run ≠ .setRunning := by
    intro hrun
    rw [hrun, RunAt.clock] at hlate
    omega
  refine h.tick_quiet hmain hinside hclock hindex (startTime_ne (by omega) (by omega)) hjoin hloops
    (.inl ⟨hrunning, hrun⟩) (fun hle => ?_) (fun _ => by omega) (fun _ => hloops ▸ hjoinable)
    (hchecking.imp_right .inl) hhandlers hterminated hacts
  rw [hrunning]
  exact hstopped (by omega)

/-- `run` waits for the workers. -/
theorem goOn_joinWorkers (hn : 0 < n) (h : Inv n s log) (hmain : s.handlers .main = []) (hinside : s.fall = 0) {i : ℕ}
    (hrun : s.run = .joinWorkers i) : Inv n (s.goOn n).1 (log ++ (s.goOn n).2) := by
  have hindex := h.index
  have hchecker := h.checker
  rw [hrun] at hindex
  simp only [Life.goOn, hrun]
  split
  · rename_i hi
    split
    · rename_i hfinished
      refine h.tick_late hmain hinside ?_ ?_ hi (fun t ht => ?_) rfl rfl ?_ ?_ (.inr ⟨rfl, ?_⟩) rfl rfl (by simp)
      all_goals simp only [hrun, RunAt.clock] at *
      all_goals try omega
      · rcases joinTime_cases ht with ⟨j, -, rfl, hj⟩ | ⟨-, hj⟩ | ⟨-, hj⟩
        · obtain rfl : i = j := by omega
          exact hfinished
        · omega
        · omega
      · exact hchecker (by omega)
    · rwa [List.append_nil]
  · -- all of them have left their loops, so that the gateway has been stopped
    rename_i hi
    have hlast : i = n := le_antisymm hindex (by omega)
    have hfirst : s.loops (.worker 0) = .finished := by
      refine h.placed.joined (.worker 0) (6 + n) (by simp [joinTime, hn]) ?_
      simp only [hrun, RunAt.clock]
      omega
    refine h.tick_late hmain hinside ?_ ?_ (Nat.zero_le n) ?_ rfl rfl (fun _ => h.left 0 (.inr hfirst)) ?_
      (.inr ⟨rfl, ?_⟩) rfl rfl (by simp)
    all_goals simp only [hrun, RunAt.clock, hlast] at *
    all_goals try omega
    · exact fun t ht => absurd ht (joinTime_ne (by omega) t)
    · exact hchecker (by omega)

/-- `run` waits for the checker, unless somebody else has. -/
theorem goOn_joinChecker (h : Inv n s log) (hmain : s.handlers .main = []) (hinside : s.fall = 0)
    (hrun : s.run = .joinChecker) : Inv n (s.goOn n).1 (log ++ (s.goOn n).2) := by
  have hpast := h.past
  have hfinished : s.joinable = false ∨ s.loops .checker = .finished →
      Inv n { s with joinable := false, run := .closeAll } (log ++ []) := by
    intro hdone
    have hloop : s.loops .checker = .finished := by
      rcases hdone with hj | hloop
      · refine (h.checker ?_).resolve_left (by simp [hj])
        simp only [hrun, RunAt.clock]
        omega
      · exact hloop
    refine h.tick_late hmain hinside ?_ ?_ (Nat.zero_le n) (fun t ht => ?_) rfl rfl (fun _ => (hpast ?_).1)
      (.inr hloop) (.inl (h.unchecked ?_)) rfl rfl (by simp)
    all_goals simp only [hrun, RunAt.clock] at *
    all_goals try omega
    rcases joinTime_cases ht with ⟨j, hj, -, hk⟩ | ⟨-, hk⟩ | ⟨rfl, -⟩
    · omega
    · omega
    · exact hloop
  simp only [Life.goOn, hrun]
  split
  · split
    · rename_i hloop
      exact hfinished (.inr hloop)
    · rwa [List.append_nil]
  · rename_i hj
    have hj : s.joinable = false := by simpa using hj
    have hjoined := hfinished (.inl hj)
    rwa [← hj] at hjoined

/-- **What `run` does keeps the invariant.** -/
theorem goOn (hn : 0 < n) (h : Inv n s log) (hmain : s.handlers .main = []) (hinside : s.fall = 0) :
    Inv n (s.goOn n).1 (log ++ (s.goOn n).2) := by
  have hindex := h.index
  have hchecker := h.checker
  have hpast := h.past
  have hstay : Inv n s (log ++ []) := by rwa [List.append_nil]
  have hnotJoined : ∀ {c}, (c < 6 + n ∨ 6 + 2 * n ≤ c ∧ c ≠ 7 + 2 * n ∧ c ≠ 9 + 2 * n) →
      ∀ t, joinTime n t = some c → s.loops t = .finished := fun hc t ht => absurd ht (joinTime_ne hc t)
  have hunjoinable : s.run.clock n < 4 → s.joinable = false := by
    intro hlt
    by_contra hj
    exact absurd (h.joinable (eq_true_of_ne_false hj)) (by omega)
  cases hrun : s.run with
  | setRunning =>
    simp only [Life.goOn, hrun]
    refine h.tick_early hmain hinside ?_ ?_ ?_ (Nat.zero_le n) rfl (.inr ⟨hrun, rfl⟩) (hunjoinable ?_) (.inl rfl) rfl
      rfl
    all_goals simp [hrun, RunAt.clock]
  | setChecking =>
    simp only [Life.goOn, hrun]
    refine h.tick_early hmain hinside ?_ ?_ ?_ (Nat.zero_le n) rfl (.inl ⟨rfl, ?_⟩) (hunjoinable ?_) (.inr hrun) rfl rfl
    all_goals simp [hrun, RunAt.clock]
  | startChecker =>
    simp only [Life.goOn, hrun]
    exact h.tick_start hmain hinside (by rw [hrun]; rfl) (by rw [hrun]; rfl) (Nat.zero_le n) rfl rfl rfl rfl rfl rfl
  | assignChecker =>
    simp only [Life.goOn, hrun]
    refine h.tick_early hmain hinside ?_ ?_ ?_ (Nat.zero_le n) rfl (.inl ⟨rfl, ?_⟩) rfl (.inl rfl) rfl rfl
    all_goals simp [hrun, RunAt.clock]
  | startMetrics =>
    simp only [Life.goOn, hrun]
    exact h.tick_start hmain hinside (by rw [hrun]; rfl) (by rw [hrun]; rfl) (Nat.zero_le n) rfl rfl rfl rfl rfl rfl
  | startWorkers i =>
    rw [hrun] at hindex
    simp only [Life.goOn, hrun]
    split
    · rename_i hi
      exact h.tick_start hmain hinside (by rw [hrun]; exact if_pos hi) (by rw [hrun]; rfl) hi rfl rfl rfl rfl rfl rfl
    · rename_i hi
      have hlast : i = n := le_antisymm hindex (by omega)
      refine h.tick_late hmain hinside ?_ ?_ (Nat.zero_le n) ?_ rfl rfl ?_ ?_ (.inr ⟨rfl, ?_⟩) rfl rfl (by simp)
      all_goals simp only [hrun, RunAt.clock, hlast] at *
      all_goals try omega
      · exact hnotJoined (by omega)
      · exact hchecker (by omega)
  | joinWorkers i => exact h.goOn_joinWorkers hn hmain hinside hrun
  | joinMetrics =>
    simp only [Life.goOn, hrun]
    split
    · rename_i hfinished
      refine h.tick_late hmain hinside ?_ ?_ (Nat.zero_le n) (fun t ht => ?_) rfl rfl (fun _ => (hpast ?_).1) ?_
        (.inr ⟨rfl, ?_⟩) rfl rfl (by simp)
      all_goals simp only [hrun, RunAt.clock] at *
      all_goals try omega
      · rcases joinTime_cases ht with ⟨j, hj, -, hk⟩ | ⟨rfl, -⟩ | ⟨-, hk⟩
        · omega
        · exact hfinished
        · omega
      · exact hchecker (by omega)
    · exact hstay
  | unsetChecking =>
    simp only [Life.goOn, hrun]
    refine h.tick_late hmain hinside ?_ ?_ (Nat.zero_le n) ?_ rfl rfl (fun _ => (hpast ?_).1) ?_ (.inl rfl) rfl rfl
      (by simp)
    all_goals simp only [hrun, RunAt.clock] at *
    all_goals try omega
    · exact hnotJoined (by omega)
    · exact hchecker (by omega)
  | joinChecker => exact h.goOn_joinChecker hmain hinside hrun
  | closeAll =>
    simp only [Life.goOn, hrun]
    refine h.tick_late hmain hinside ?_ ?_ (Nat.zero_le n) ?_ rfl rfl (fun _ => (hpast ?_).1) ?_ (.inl (h.unchecked ?_))
      rfl rfl (by simp [Act.isStopped])
    all_goals simp only [hrun, RunAt.clock] at *
    all_goals try omega
    · exact hnotJoined (by omega)
    · exact hchecker (by omega)
  | returned =>
    simp only [Life.goOn, hrun]
    exact hstay

/-- Only the stack of a thread changes. -/
theorem setHandlers (h : Inv n s log) {t : Thread} {l : List StopAt}
    (halive : l ≠ [] → t = .main ∨ s.loops t = .looping ∨ s.loops t = .leaving)
    (hstopping : ∀ x ∈ l, x ≠ .exchange → .stopped t ∈ log)
    (hpast : t = .main → 7 + 2 * n ≤ s.run.clock n ∨ 3 ≤ s.fall → ∀ x ∈ l, x = .exchange)
    (hquitting : t = .main → s.running = false ∨ .exchange ∈ l)
    (hwaiting : .joinChecker ∈ l → s.checking = false) : Inv n (s.setHandlers t l) log where
  placed := h.placed
  index := h.index
  left := h.left
  unset := h.unset
  stops := h.stops
  alive u hu := by
    by_cases heq : u = t
    · subst heq
      exact halive (by simpa [Life.setHandlers] using hu)
    · exact h.alive u (by simpa [Life.setHandlers, heq] using hu)
  stopping u x hx hne := by
    by_cases heq : u = t
    · subst heq
      exact hstopping x (by simpa [Life.setHandlers] using hx) hne
    · exact h.stopping u x (by simpa [Life.setHandlers, heq] using hx) hne
  past hle := by
    refine ⟨(h.past hle).1, fun x hx => ?_⟩
    by_cases heq : t = .main
    · subst heq
      exact hpast rfl hle x (by simpa [Life.setHandlers] using hx)
    · exact (h.past hle).2 x (by simpa [Life.setHandlers, Ne.symm heq] using hx)
  quitting hfall := by
    by_cases heq : t = .main
    · subst heq
      simpa [Life.setHandlers] using hquitting rfl
    · simpa [Life.setHandlers, Ne.symm heq] using h.quitting hfall
  notStarted := h.notStarted
  alone := h.alone
  released := h.released
  joinable := h.joinable
  checker := h.checker
  waiting u hu := by
    by_cases heq : u = t
    · subst heq
      exact hwaiting (by simpa [Life.setHandlers] using hu)
    · exact h.waiting u (by simpa [Life.setHandlers, heq] using hu)
  unchecked := h.unchecked
  terminated := h.terminated

theorem running_of_stopped (h : Inv n s log) {t : Thread} (ht : .stopped t ∈ log) : s.running = false := by
  have hpos : 0 < log.countP Act.isStopped := List.countP_pos_iff.mpr ⟨_, ht, rfl⟩
  rw [h.stops] at hpos
  split at hpos
  · cases hpos
  · rename_i hnone
    exact eq_false_of_ne_true (not_or.mp hnone).2

/-- A handler that goes on in `stop` has changed `running_`. -/
theorem running_of_stopping (h : Inv n s log) {t : Thread} {x : StopAt} (hx : x ∈ s.handlers t)
    (hne : x ≠ .exchange) : s.running = false :=
  h.running_of_stopped (h.stopping t x hx hne)

/-- A handler returns, when the gateway has been stopped. -/
theorem pop (h : Inv n s log) {t : Thread} {x : StopAt} {rest : List StopAt} (hstack : s.handlers t = x :: rest)
    (hrunning : s.running = false) : Inv n (s.setHandlers t rest) log := by
  have hsub : ∀ y ∈ rest, y ∈ s.handlers t := fun y hy => hstack ▸ List.mem_cons_of_mem x hy
  refine h.setHandlers (fun _ => h.alive t (by simp [hstack])) (fun y hy => h.stopping t y (hsub y hy)) ?_
    (fun _ => .inl hrunning) fun hy => h.waiting t (hsub _ hy)
  rintro rfl hle y hy
  exact (h.past hle).2 y (hsub y hy)

/-- The handler at the top of a stack goes on in `stop`. -/
theorem replace (h : Inv n s log) {t : Thread} {x y : StopAt} {rest : List StopAt}
    (hstack : s.handlers t = x :: rest) (hx : x ≠ .exchange) (hy : y = .joinChecker → s.checking = false) :
    Inv n (s.setHandlers t (y :: rest)) log := by
  have hstopped : .stopped t ∈ log := h.stopping t x (by simp [hstack]) hx
  refine h.setHandlers (fun _ => h.alive t (by simp [hstack])) (fun _ _ _ => hstopped) ?_
    (fun _ => .inl (h.running_of_stopped hstopped)) fun hmem => ?_
  · rintro rfl hle
    exact absurd ((h.past hle).2 x (by simp [hstack])) hx
  · rcases List.mem_cons.mp hmem with heq | hmem
    · exact hy heq.symm
    · exact h.waiting t (hstack ▸ List.mem_cons_of_mem x hmem)

/-- **`stop` keeps the invariant.** -/
theorem stop (h : Inv n s log) {t : Thread} {x : StopAt} {rest : List StopAt} (hstack : s.handlers t = x :: rest) :
    Inv n (s.stop t rest x).1 (log ++ (s.stop t rest x).2) := by
  cases x with
  | exchange =>
    rw [Life.stop]
    split
    · rename_i hrunning
      have hrun : s.run ≠ .setRunning := by
        intro hrun
        rw [h.unset hrun] at hrunning
        cases hrunning
      have hcount : log.countP Act.isStopped = 0 := by rw [h.stops, if_pos (.inr hrunning)]
      have hstopped : Inv n { s with running := false } (log ++ [.stopped t]) :=
        { h with
          left := fun _ _ => rfl
          unset := fun _ => rfl
          stops := by
            rw [List.countP_append, hcount, if_neg (by simp [hrun])]
            rfl
          stopping := fun u x hx hne => List.mem_append_left _ (h.stopping u x hx hne)
          past := fun hle => ⟨rfl, (h.past hle).2⟩
          quitting := fun _ => .inl rfl
          notStarted := fun hfall => (h.notStarted hfall).imp fun _ ht => ⟨ht.1, List.mem_append_left _ ht.2⟩
          terminated := fun hterm => (h.terminated hterm).imp fun _ ha => ⟨List.mem_append_left _ ha.1, ha.2⟩ }
      refine hstopped.setHandlers (fun _ => h.alive t (by simp [hstack])) (fun _ _ _ => by simp) ?_
        (fun _ => .inl rfl) fun hmem => ?_
      · rintro - hle
        exact absurd ((h.past hle).1.symm.trans hrunning) (by simp)
      · rcases List.mem_cons.mp hmem with heq | hmem
        · cases heq
        · exact h.waiting t (hstack ▸ List.mem_cons_of_mem _ hmem)
    · rename_i hrunning
      rw [List.append_nil]
      exact h.pop hstack (by simpa using hrunning)
  | unsetChecking =>
    rw [Life.stop, List.append_nil]
    have hunset : Inv n { s with checking := false } log :=
      { h with
        waiting := fun _ _ => rfl
        unchecked := fun _ => rfl }
    exact hunset.replace hstack (by simp) fun _ => rfl
  | joinChecker =>
    have hrunning : s.running = false := h.running_of_stopping (hstack ▸ List.mem_cons_self) (by simp)
    rw [Life.stop]
    split
    · split
      · rename_i heq
        subst heq
        rw [List.append_nil]
        have hself : .stopped .checker ∈ log := h.stopping .checker .joinChecker (by simp [hstack]) (by simp)
        exact { h with terminated := fun _ => ⟨_, hself, rfl⟩ }
      · split
        · rename_i hfinished
          have hjoined : Inv n { s with joinable := false } log :=
            { h with
              joinable := by simp
              checker := fun _ => .inr hfinished
              released := fun _ => rfl }
          rw [List.append_nil]
          exact hjoined.pop hstack hrunning
        · rwa [List.append_nil]
    · rw [List.append_nil]
      exact h.pop hstack hrunning

/-- A thread goes on in its loop, or leaves it. -/
theorem setLoop (h : Inv n s log) {t : Thread} {l : Looping} (hstack : s.handlers t = [])
    (hl : l = .unstarted ↔ s.loops t = .unstarted) (hfinished : s.loops t = .finished → l = .finished)
    (hleft : ∀ i, t = .worker i → l = .leaving ∨ l = .finished → s.running = false) :
    Inv n (s.setLoop t l) log where
  placed := h.placed.loop hl hfinished
  index := h.index
  left i hi := by
    by_cases heq : .worker i = t
    · exact hleft i heq.symm (by simpa [Life.setLoop, heq] using hi)
    · exact h.left i (by simpa [Life.setLoop, heq] using hi)
  unset := h.unset
  stops := h.stops
  alive u hu := by
    have hne : u ≠ t := by
      rintro rfl
      exact hu hstack
    simpa [Life.setLoop, hne] using h.alive u hu
  stopping := h.stopping
  past := h.past
  quitting := h.quitting
  notStarted := h.notStarted
  alone := h.alone
  released := h.released
  joinable := h.joinable
  checker hle := by
    refine (h.checker hle).imp_right fun hdone => ?_
    by_cases heq : .checker = t
    · simpa [Life.setLoop, heq] using hfinished (heq ▸ hdone)
    · simpa [Life.setLoop, heq] using hdone
  waiting := h.waiting
  unchecked := h.unchecked
  terminated := h.terminated

/-- Something happens that is no stop. -/
theorem append (h : Inv n s log) {a : Act} (ha : a.isStopped = false) : Inv n s (log ++ [a]) :=
  { h with
    stops := by rw [List.countP_append, h.stops, List.countP_singleton, ha]; rfl
    stopping := fun u x hx hne => List.mem_append_left _ (h.stopping u x hx hne)
    notStarted := fun hfall => (h.notStarted hfall).imp fun _ ht => ⟨ht.1, List.mem_append_left _ ht.2⟩
    terminated := fun hterm => (h.terminated hterm).imp fun _ ha => ⟨List.mem_append_left _ ha.1, ha.2⟩ }

/-- The process ends. -/
theorem terminate (h : Inv n s log) {a : Act} (ha : a ∈ log) (hfatal : a.isFatal = true) :
    Inv n { s with terminated := true } log :=
  { h with terminated := fun _ => ⟨a, ha, hfatal⟩ }

/-- **`~Gateway` keeps the invariant.** -/
theorem destroy (h : Inv n s log) (hmain : s.handlers .main = []) {d : DestroyAt} (hd : s.destroying = some d) :
    Inv n (s.destroy d).1 (log ++ (s.destroy d).2) := by
  have hstay : Inv n s (log ++ []) := by rwa [List.append_nil]
  obtain ⟨t, ht, hlog⟩ := h.notStarted (by cases d <;> simp [Life.fall, hd])
  cases d with
  | stop =>
    have hcalled : Inv n (s.setHandlers .main [.exchange]) (log ++ []) :=
      hstay.setHandlers (fun _ => .inl rfl) (by simp) (by simp) (by simp) (by simp)
    exact { hcalled with
      past := fun hle => hcalled.past (.inl (hle.resolve_right (by simp [Life.destroy, Life.fall, Life.setHandlers])))
      quitting := fun _ => .inr (by simp [Life.destroy, Life.setHandlers])
      notStarted := fun _ => ⟨t, ht, List.mem_append_left _ hlog⟩
      alone := fun hfall => absurd hfall (by simp [Life.destroy, Life.fall, Life.setHandlers])
      released := fun hfall => absurd hfall (by simp [Life.destroy, Life.fall, Life.setHandlers])
      unchecked := fun hle =>
        hcalled.unchecked (.inl (hle.resolve_right (by simp [Life.destroy, Life.fall, Life.setHandlers]))) }
  | destroyThreads =>
    have hstarted := h.placed.started .metrics
    rw [Life.destroy]
    split
    · rename_i hun
      have hrunning : s.running = false := by simpa [hmain] using h.quitting (by simp [Life.fall, hd])
      have hclock : s.run.clock n ≤ 4 := by
        by_contra hlt
        exact hstarted.mpr ⟨4, rfl, by omega⟩ hun
      exact { hstay with
        past := fun _ => ⟨hrunning, by simp [hmain]⟩
        quitting := fun _ => .inl hrunning
        notStarted := fun _ => ⟨t, ht, List.mem_append_left _ hlog⟩
        alone := fun _ => hclock
        released := fun hfall => absurd hfall (by simp [Life.fall])
        unchecked := fun hle => h.unchecked (.inl (hle.resolve_right (by simp [Life.fall]))) }
    · -- the thread that could not be started came after the metrics thread
      rename_i hne
      obtain ⟨k, hk, hlt⟩ := hstarted.mp hne
      obtain rfl : 4 = k := Option.some.inj hk
      have hfatal : (Act.notStarted t).isFatal = true := by
        cases t with
        | worker i => rfl
        | main => cases ht
        | metrics => exact absurd (Option.some.inj ht) (by omega)
        | checker => exact absurd (Option.some.inj ht) (by omega)
      exact hstay.terminate (List.mem_append_left _ hlog) hfatal
  | unsetChecking =>
    have hpast := h.past (.inr (by simp [Life.fall, hd]))
    exact { hstay with
      past := fun _ => hpast
      quitting := fun _ => .inl hpast.1
      notStarted := fun _ => ⟨t, ht, List.mem_append_left _ hlog⟩
      alone := fun _ => h.alone (by simp [Life.fall, hd])
      released := fun hfall => absurd hfall (by simp [Life.destroy, Life.fall])
      waiting := fun _ _ => rfl
      unchecked := fun _ => rfl }
  | joinChecker =>
    have hpast := h.past (.inr (by simp [Life.fall, hd]))
    have hexit : s.joinable = false ∨ s.loops .checker = .finished →
        Inv n { s with joinable := false, destroying := some .exited } (log ++ []) := fun hdone =>
      { hstay with
        past := fun _ => hpast
        quitting := fun _ => .inl hpast.1
        notStarted := fun _ => ⟨t, ht, List.mem_append_left _ hlog⟩
        alone := fun _ => h.alone (by simp [Life.fall, hd])
        released := fun _ => rfl
        joinable := by simp
        checker := fun hle => .inr <| hdone.elim (fun hj => (h.checker hle).resolve_left (by simp [hj])) id
        unchecked := fun _ => h.unchecked (.inr (by simp [Life.fall, hd])) }
    rw [Life.destroy]
    split
    · split
      · rename_i hfinished
        exact hexit (.inr hfinished)
      · exact hstay
    · rename_i hj
      have hj : s.joinable = false := by simpa using hj
      have hexited := hexit (.inl hj)
      rwa [← hj] at hexited
  | exited => exact hstay

theorem advance (hn : 0 < n) (h : Inv n s log) {t : Thread} (hstack : s.handlers t = []) :
    Inv n (s.advance n t).1 (log ++ (s.advance n t).2) := by
  by_cases hmain : t = .main
  · subst hmain
    rw [Life.advance]
    split
    · rename_i hinside
      exact h.goOn hn hstack (by rw [Life.fall, hinside])
    · rename_i d hd
      exact h.destroy hstack hd
  · have hstep : s.advance n t = (s.setLoop t ((s.loops t).next (s.flag t)), []) := by
      cases t with
      | main => exact absurd rfl hmain
      | _ => rfl
    rw [hstep, List.append_nil]
    refine h.setLoop hstack ?_ ?_ ?_
    · cases s.loops t with
      | looping =>
        rw [Looping.next]
        split <;> simp
      | _ => simp [Looping.next]
    · intro hfinished
      rw [hfinished]
      rfl
    · rintro i rfl hleft
      cases hloop : s.loops (.worker i) with
      | unstarted => simp [hloop, Looping.next] at hleft
      | looping =>
        cases hrunning : s.running with
        | false => rfl
        | true => simp [hloop, Looping.next, Life.flag, hrunning] at hleft
      | leaving => exact h.left i (.inl hloop)
      | finished => exact h.left i (.inr hloop)

/-- **An exception keeps the invariant.** -/
theorem throw (h : Inv n s log) {t : Thread} (halive : s.alive t = true) (hstack : s.handlers t = []) :
    Inv n (s.throw n t).1 (log ++ (s.throw n t).2) := by
  cases t with
  | worker i => exact (h.append (a := .threw (.worker i)) rfl).terminate List.mem_concat_self rfl
  | checker => exact (h.append (a := .threw .checker) rfl).terminate List.mem_concat_self rfl
  | metrics =>
    have hloop : s.loops .metrics = .looping ∨ s.loops .metrics = .leaving := by simpa [Life.alive] using halive
    refine (h.append (a := .threw .metrics) rfl).setLoop hstack ?_ ?_ (by simp)
    · rcases hloop with heq | heq <;> simp [heq]
    · rcases hloop with heq | heq <;> simp [heq]
  | main =>
    rw [Life.throw]
    split
    · rename_i t hinside hstarting
      have hlog : Inv n s (log ++ [.notStarted t]) := h.append rfl
      exact { hlog with
        past := fun hle => hlog.past (.inl (hle.resolve_right (by simp [Life.fall])))
        quitting := fun hfall => absurd hfall (by simp [Life.fall])
        notStarted := fun _ => ⟨t, startTime_of_starting hstarting, List.mem_concat_self⟩
        alone := fun hfall => absurd hfall (by simp [Life.fall])
        released := fun hfall => absurd hfall (by simp [Life.fall])
        unchecked := fun hle => hlog.unchecked (.inl (hle.resolve_right (by simp [Life.fall]))) }
    · simpa using h

/-- **Every move keeps the invariant.** -/
theorem step (hn : 0 < n) (h : Inv n s log) (e : Move) : Inv n (s.step n e).1 (log ++ (s.step n e).2) := by
  have hstay : Inv n s (log ++ []) := by rwa [List.append_nil]
  unfold Life.step
  split
  · exact hstay
  · cases e with
    | step t =>
      dsimp only
      split
      · rename_i x rest hstack
        exact h.stop hstack
      · rename_i hstack
        exact h.advance hn hstack
    | signal t =>
      dsimp only
      split
      · rename_i halive
        rw [List.append_nil]
        refine h.setHandlers (fun _ => ?_) ?_ ?_ (fun _ => .inr List.mem_cons_self) ?_
        · cases t with
          | main => exact .inl rfl
          | _ => exact .inr (by simpa [Life.alive] using halive)
        · intro x hx hne
          rcases List.mem_cons.mp hx with heq | hx
          · exact absurd heq hne
          · exact h.stopping t x hx hne
        · rintro rfl hle x hx
          rcases List.mem_cons.mp hx with heq | hx
          · exact heq
          · exact (h.past hle).2 x hx
        · intro hmem
          rcases List.mem_cons.mp hmem with heq | hmem
          · cases heq
          · exact h.waiting t hmem
      · exact hstay
    | throws t =>
      dsimp only
      split
      · rename_i hcan
        obtain ⟨halive, hstack⟩ : s.alive t = true ∧ s.handlers t = [] := by simpa using hcan
        exact h.throw halive hstack
      · exact hstay

/-- A thread that has been joined has no handler. -/
theorem handlers_of_joined (h : Inv n s log) {t : Thread} {k : ℕ} (hk : joinTime n t = some k)
    (hlt : k < s.run.clock n) : s.handlers t = [] := by
  have hfinished := h.placed.joined t k hk hlt
  by_contra hne
  rcases h.alive t hne with rfl | heq | heq
  · cases hk
  · simp [hfinished] at heq
  · simp [hfinished] at heq

/-- A thread that runs is one of those that `run` starts. -/
theorem startTime_of_loop (h : Inv n s log) {t : Thread} (ht : s.loops t = .looping ∨ s.loops t = .leaving) :
    ∃ k, startTime n t = some k :=
  ((h.placed.started t).mp (by rcases ht with heq | heq <;> simp [heq])).imp fun _ hk => hk.1

end Inv

/-! ## Safety -/

/-- The main thread has come to a `join` of the health checker's thread, in `run` or in `~Gateway`. -/
def Life.MainJoins (s : Life) : Prop := s.run = .joinChecker ∨ s.destroying = some .joinChecker

/-- The thread is in a `join` of the health checker's thread, maybe below another handler. -/
def Life.Joins (s : Life) (t : Thread) : Prop :=
  s.joinable = true ∧ (.joinChecker ∈ s.handlers t ∨ t = .main ∧ s.MainJoins)

/-- Only one thread's `stop` takes effect. -/
theorem stopped_unique {log : List Act} (hcount : log.countP Act.isStopped ≤ 1) {t t' : Thread}
    (ht : .stopped t ∈ log) (ht' : .stopped t' ∈ log) : t = t' := by
  rw [List.countP_eq_length_filter] at hcount
  have hmem : ∀ {u}, .stopped u ∈ log → .stopped u ∈ log.filter Act.isStopped := fun hu =>
    List.mem_filter.mpr ⟨hu, rfl⟩
  obtain ⟨a, ha⟩ : ∃ a, log.filter Act.isStopped = [a] :=
    List.length_eq_one_iff.mp (le_antisymm hcount (List.length_pos_of_mem (hmem ht)))
  have heq := hmem ht
  have heq' := hmem ht'
  rw [ha, List.mem_singleton] at heq heq'
  rw [← heq] at heq'
  exact (Act.stopped.inj heq').symm

namespace Inv

variable {n : ℕ} {s : Life} {log : List Act}

theorem countP_le_one (h : Inv n s log) : log.countP Act.isStopped ≤ 1 := by
  rw [h.stops]
  split
  · exact Nat.zero_le 1
  · exact le_rfl

/-- A thread that is started after the clock stands has no handler. -/
theorem handlers_of_unstarted (h : Inv n s log) {t : Thread} {k : ℕ} (hk : startTime n t = some k)
    (hle : s.run.clock n ≤ k) : s.handlers t = [] := by
  by_contra hne
  rcases h.alive t hne with rfl | hloop
  · cases hk
  · obtain ⟨k', hk', hlt⟩ := (h.placed.started t).mp (by rcases hloop with heq | heq <;> simp [heq])
    obtain rfl : k = k' := Option.some.inj (hk.symm.trans hk')
    omega

/-- While the main thread joins the health checker, no other thread does, unless it is the checker. -/
theorem joins_main (h : Inv n s log) (hjoins : s.MainJoins) {t : Thread} (hmem : .joinChecker ∈ s.handlers t) :
    t = .checker := by
  have hwhen : 9 + 2 * n ≤ s.run.clock n ∨ 3 ≤ s.fall := by
    rcases hjoins with hrun | hd
    · exact .inl (by rw [hrun]; exact le_rfl)
    · exact .inr (by simp [Life.fall, hd])
  -- the others have been joined, or have not been started
  have hnone : ∀ {k j}, startTime n t = some k → joinTime n t = some j → 4 ≤ k → j < 9 + 2 * n → False := by
    intro k j hk hj hle hlt
    have hempty : s.handlers t = [] := by
      rcases hwhen with hclock | hfall
      · exact h.handlers_of_joined hj (by omega)
      · exact h.handlers_of_unstarted hk ((h.alone hfall).trans hle)
    simp [hempty] at hmem
  cases t with
  | main => simpa using (h.past (hwhen.imp_left (by omega))).2 _ hmem
  | worker i =>
    rcases h.alive (.worker i) (List.ne_nil_of_mem hmem) with heq | hloop
    · cases heq
    · obtain ⟨k, hk⟩ := h.startTime_of_loop hloop
      rw [startTime, Option.ite_none_right_eq_some] at hk
      exact (hnone (if_pos hk.1) (if_pos hk.1) (by omega) (by omega)).elim
  | metrics => exact (hnone rfl rfl le_rfl (by omega)).elim
  | checker => rfl

/-- When `run` has joined all threads, and when the process ends in order, no other thread is left. -/
theorem all_done (h : Inv n s log) (hend : 10 + 2 * n ≤ s.run.clock n ∨ s.fall = 5) {t : Thread} (hmain : t ≠ .main) :
    s.loops t ≠ .looping ∧ s.loops t ≠ .leaving := by
  rw [← not_or]
  intro hloop
  obtain ⟨k, hk, hlt⟩ := (h.placed.started t).mp (by rcases hloop with heq | heq <;> simp [heq])
  rcases hend with hclock | hfall
  · have hjoin : ∃ j, joinTime n t = some j ∧ j < 10 + 2 * n := by
      cases t with
      | main => exact absurd rfl hmain
      | worker i =>
        rw [startTime, Option.ite_none_right_eq_some] at hk
        exact ⟨_, if_pos hk.1, by omega⟩
      | metrics => exact ⟨_, rfl, by omega⟩
      | checker => exact ⟨_, rfl, by omega⟩
    obtain ⟨j, hj, hlt'⟩ := hjoin
    have hfinished := h.placed.joined t j hj (by omega)
    simp [hfinished] at hloop
  · have hclock := h.alone (by omega)
    cases t with
    | main => exact hmain rfl
    | worker i =>
      rw [startTime, Option.ite_none_right_eq_some, Option.some.injEq] at hk
      omega
    | metrics =>
      have := Option.some.inj hk
      omega
    | checker =>
      obtain ⟨u, hu, -⟩ := h.notStarted (by omega)
      have hcases := startTime_cases hu
      have hk := Option.some.inj hk
      have hfinished := (h.checker (by omega)).resolve_left (by simp [h.released hfall])
      simp [hfinished] at hloop

end Inv

/-- **Shutting down is safe.** In every run, with signals delivered to any threads at any time and threads that fail to
start: a stop takes effect once at most, and not before `run` has set `running_`; apart from the health checker's own
thread, no two threads join it at a time, nor does one thread twice; when `run` comes to close the pool, and when the
process ends in order after an exception in `run`, the gateway has been stopped and all other threads are done; and the
process is terminated only if an exception leaves the loop of a worker or of the health checker, if a worker cannot be
started, or if the stop is handled on the health checker's thread. -/
theorem shutdown_safe {n : ℕ} (hn : 0 < n) (es : List Move) :
    let r := Reactive.run (Life.step n) {} es
    (r.2.countP Act.isStopped ≤ 1 ∧ (r.1.run = .setRunning → r.2.countP Act.isStopped = 0)) ∧
    (∀ t t', r.1.Joins t → r.1.Joins t' → t ≠ .checker → t' ≠ .checker → t = t') ∧
    ¬ (r.1.MainJoins ∧ .joinChecker ∈ r.1.handlers .main) ∧
    (r.1.run = .closeAll ∨ r.1.run = .returned ∨ r.1.destroying = some .exited → r.1.running = false ∧
      ∀ t, t ≠ .main → r.1.loops t ≠ .looping ∧ r.1.loops t ≠ .leaving) ∧
    (r.1.terminated = true → ∃ a ∈ r.2, a.isFatal = true) := by
  intro r
  have h : Inv n r.1 r.2 := Reactive.run_invariant (inv_start n) (fun _ _ e h => h.step hn e) es
  refine ⟨⟨h.countP_le_one, fun hrun => ?_⟩, ?_, ?_, ?_, h.terminated⟩
  · rw [h.stops, if_pos (.inl hrun)]
  · rintro t t' ⟨-, ht | ⟨rfl, hjoins⟩⟩ ⟨-, ht' | ⟨rfl, hjoins'⟩⟩ hne hne'
    · exact stopped_unique h.countP_le_one (h.stopping t _ ht (by simp)) (h.stopping t' _ ht' (by simp))
    · exact absurd (h.joins_main hjoins' ht) hne
    · exact absurd (h.joins_main hjoins ht') hne'
    · rfl
  · rintro ⟨hjoins, hmem⟩
    exact absurd (h.joins_main hjoins hmem) (by simp)
  · intro hend
    have hend : 10 + 2 * n ≤ r.1.run.clock n ∨ r.1.fall = 5 := by
      rcases hend with hrun | hrun | hd
      · exact .inl (by rw [hrun]; exact le_rfl)
      · exact .inl (by rw [hrun, RunAt.clock]; omega)
      · exact .inr (by simp [Life.fall, hd])
    exact ⟨(h.past (by omega)).1, fun t => h.all_done hend⟩

/-- A signal that comes too early is lost. Another one is delivered to the worker, which joins the health checker
before it leaves its loop. -/
def stoppedByWorker : List Move :=
  .signal .main :: .step .main :: List.replicate 7 (.step .main) ++ .signal (.worker 0) ::
    [.step (.worker 0), .step (.worker 0), .step (.worker 0), .step .checker, .step .checker] ++
    List.replicate 3 (.step (.worker 0)) ++ List.replicate 2 (.step .metrics) ++ List.replicate 7 (.step .main)

theorem shutdown_safe_stoppedByWorker :
    let r := Reactive.run (Life.step 1) {} stoppedByWorker
    r.1.run = .returned ∧ r.2 = [.stopped (.worker 0), .closedAll] ∧ r.1.running = false := by
  obtain ⟨-, -, -, hclosed, -⟩ := shutdown_safe Nat.one_pos stoppedByWorker
  have hrun : (Reactive.run (Life.step 1) {} stoppedByWorker).1.run = .returned := by decide
  exact ⟨hrun, by decide, (hclosed (.inr (.inl hrun))).1⟩

/-- The worker cannot be started: the gateway is stopped, and then the process ends for the metrics thread's sake. -/
example :
    let r := Reactive.run (Life.step 1) {} <|
      List.replicate 5 (.step .main) ++ .throws .main :: List.replicate 3 (.step .main) ++
        [.step .checker, .step .checker, .step .main, .step .main]
    r.1.terminated = true ∧ r.2 = [.notStarted (.worker 0), .stopped .main] := by
  decide

end ApiGateway.Core.Lifecycle
