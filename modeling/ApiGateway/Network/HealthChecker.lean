import ApiGateway.Common.Reactive
import ApiGateway.Common.Strings
import ApiGateway.Network.Dialing
import ApiGateway.Routing.LoadBalancer
import Mathlib.Data.List.Destutter

/-!
# The health checker

A thread that probes the backends one after the other, again and again, and sets their health flags. A probe
is a step up to `socket` and a step from there on, so that its descriptor is seen to be open in between; other
threads set `running_` at any time. No other thread writes the flags.

The flag of a backend is the verdict of its last probe, and the lines that are logged for it are its verdicts
without repetitions. After `stop` has cleared `running_`, the round is finished and no other one begins.

Reference: `src/network/HealthChecker.cpp`, `include/network/HealthChecker.hpp`.
-/

namespace ApiGateway.Routing

open Str

def Backend.address (b : Backend) : Bytes := b.host ++ bytes ":" ++ decimalInt b.port

end ApiGateway.Routing

namespace ApiGateway.Network

open Str Descriptors Routing

/-! ## A probe -/

/-- What the system calls of a probe return. -/
structure ProbeResults extends DialResults where
  /-- The result of `send`, for what it is given. -/
  send : Bytes → ℤ
  /-- The result of `poll` for the reply. -/
  readable : ℤ
  /-- The bytes that are there for `recv`; none, if it fails or the peer has closed its side. -/
  reply : Bytes

def probeRequest (path host : Bytes) : Bytes :=
  bytes "GET " ++ path ++ bytes " HTTP/1.1\r\nHost: " ++ host ++ bytes "\r\nConnection: close\r\n\r\n"

/-- The string that a buffer with a terminating zero is converted to. -/
def cString (buf : Bytes) : Bytes := buf.takeWhile (· ≠ 0)

/-- Any 2xx is a healthy response. -/
def isHealthyReply (resp : Bytes) : Bool :=
  (find resp (bytes "HTTP/1.1 2")).isSome || (find resp (bytes "HTTP/1.0 2")).isSome

/-- `HealthChecker::checkOne`, with the calls on its descriptor. The buffer holds 63 bytes. -/
def checkOne (path host : Bytes) (port : ℤ) (r : ProbeResults) : Bool × List (Call ℤ (Bytes × ℤ)) :=
  match connectTo host port r.toDialResults with
  | (none, calls) => (false, calls)
  | (some fd, calls) =>
    if r.send (probeRequest path host) < 0 then (false, calls ++ [.used fd, .closed fd])
    else if r.readable ≤ 0 then (false, calls ++ [.used fd, .closed fd])
    else
      let buf := r.reply.take 63
      (buf ≠ [] && isHealthyReply (cString buf), calls ++ [.used fd, .used fd, .closed fd])

/-- Without a socket there is no call, and the backend is not healthy. -/
theorem checkOne_of_no_socket (path host : Bytes) (port : ℤ) {r : ProbeResults}
    (h : r.resolved = false ∨ r.socket < 0) : checkOne path host port r = (false, []) := by
  rw [checkOne, connectTo_of_no_socket host port h]

/-- With a socket, it is opened, used a few times and closed. -/
theorem exists_uses_checkOne (path host : Bytes) (port : ℤ) {r : ProbeResults}
    (hresolved : r.resolved = true) (hsocket : 0 ≤ r.socket) :
    ∃ uses, (checkOne path host port r).2
      = .opened r.socket (host, port) :: (List.replicate uses (.used r.socket) ++ [.closed r.socket]) := by
  rcases connectTo_of_socket host port hresolved hsocket with hnone | hsome
  · exact ⟨0, by rw [checkOne, hnone]; rfl⟩
  · rw [checkOne, hsome]
    dsimp only
    split
    · exact ⟨1, rfl⟩
    · split
      · exact ⟨1, rfl⟩
      · exact ⟨2, rfl⟩

/-! ## The thread -/

/-- Where the thread is. -/
inductive Checking where
  /-- `start` has not been called. -/
  | unstarted
  /-- Before the test of the `while` loop. -/
  | top
  /-- In the `for` loop, before the probe of a backend. -/
  | probing (i : ℕ)
  /-- In the probe of a backend, after `socket`. -/
  | connecting (i : ℕ) (fd : ℤ)
  /-- In `wait_for`. -/
  | waiting
  | finished
deriving DecidableEq, Repr

/-- The backend that is being probed. -/
def Checking.current : Checking → Option ℕ
  | .probing i => some i
  | .connecting i _ => some i
  | _ => none

structure HealthChecker where
  path : Bytes
  backends : List Backend
  running : Bool := false
  phase : Checking := .unstarted

/-- What is logged. -/
inductive CheckAct where
  | call (c : Call ℤ (Bytes × ℤ))
  /-- A probe has ended with a verdict. -/
  | probed (i : ℕ) (ok : Bool)
  /-- A call of the logger. -/
  | logged (i : ℕ) (msg fields : Bytes)

inductive CheckSignal where
  | start
  /-- `stop` clears `running_`, and wakes up the thread. -/
  | stop
  /-- The thread's next step, with what the system calls in it return. -/
  | step (r : ProbeResults)

def CheckSignal.isStep : CheckSignal → Bool
  | .step _ => true
  | _ => false

namespace HealthChecker

/-- What is logged for a backend whose flag has changed. -/
def healthLine (b : Backend) (ok : Bool) : Bytes × Bytes :=
  (if ok then bytes "backend became healthy" else bytes "backend became unhealthy",
    bytes "\"backend\":\"" ++ b.address ++ bytes "\"")

/-- The next round of the `for` loop, or its end. -/
def afterProbe (hc : HealthChecker) (i : ℕ) : Checking :=
  if i + 1 < hc.backends.length then .probing (i + 1) else .waiting

/-- The `exchange` of the flag and what follows it in the `for` loop. -/
def settle (hc : HealthChecker) (i : ℕ) (b : Backend) (ok : Bool) : HealthChecker × List CheckAct :=
  ({ hc with
      backends := hc.backends.modify i fun b => { b with healthy := ok }
      phase := hc.afterProbe i },
    .probed i ok ::
      if b.healthy ≠ ok then [.logged i (healthLine b ok).1 (healthLine b ok).2] else [])

/-- A step of the thread. -/
def step (hc : HealthChecker) (r : ProbeResults) : HealthChecker × List CheckAct :=
  match hc.phase with
  | .unstarted => (hc, [])
  | .top =>
    if hc.running then ({ hc with phase := if hc.backends = [] then .waiting else .probing 0 }, [])
    else ({ hc with phase := .finished }, [])
  | .probing i =>
    match hc.backends[i]? with
    | none => (hc, [])
    | some b =>
      if !r.resolved || r.socket < 0 then hc.settle i b (checkOne hc.path b.host b.port r).1
      else ({ hc with phase := .connecting i r.socket }, [.call (.opened r.socket (b.host, b.port))])
  | .connecting i fd =>
    match hc.backends[i]? with
    | none => (hc, [])
    | some b =>
      let (ok, calls) := checkOne hc.path b.host b.port { r with resolved := true, socket := fd }
      let (hc, acts) := hc.settle i b ok
      (hc, calls.tail.map .call ++ acts)
  | .waiting => ({ hc with phase := .top }, [])
  | .finished => (hc, [])

/-- What the other threads and the checker's own do. `Gateway::run` calls `start` once; a second call, which would
assign to a `thread_` that may be joinable, is left out. -/
def next (hc : HealthChecker) : CheckSignal → HealthChecker × List CheckAct
  | .start => (if hc.phase = .unstarted then { hc with running := true, phase := .top } else hc, [])
  | .stop => ({ hc with running := false }, [])
  | .step r => hc.step r

/-- **Alone, the steps of a probe are `checkOne`**: one step without a socket, and two with one. -/
theorem steps_eq_checkOne (hc : HealthChecker) {i : ℕ} {b : Backend} {r : ProbeResults} {ok : Bool}
    {calls : List (Call ℤ (Bytes × ℤ))} (hphase : hc.phase = .probing i) (hb : hc.backends[i]? = some b)
    (hprobe : checkOne hc.path b.host b.port r = (ok, calls)) :
    if !r.resolved || r.socket < 0 then
      hc.step r = ((hc.settle i b ok).1, calls.map .call ++ (hc.settle i b ok).2)
    else
      ((hc.step r).1.step r).1 = (hc.settle i b ok).1 ∧
        (hc.step r).2 ++ ((hc.step r).1.step r).2 = calls.map .call ++ (hc.settle i b ok).2 := by
  split
  · rename_i hnone
    obtain ⟨rfl, rfl⟩ : false = ok ∧ [] = calls :=
      Prod.mk.inj ((checkOne_of_no_socket _ _ _ (by simpa using hnone)).symm.trans hprobe)
    simp only [step, hphase, hb, hnone, if_true, hprobe, List.map_nil, List.nil_append]
  · rename_i hsocket
    obtain ⟨hresolved, hfd⟩ : r.resolved = true ∧ 0 ≤ r.socket := by simpa using hsocket
    have hr : ({ r with resolved := true, socket := r.socket } : ProbeResults) = r := by
      rw [← hresolved]
    obtain ⟨uses, huses⟩ := exists_uses_checkOne hc.path b.host b.port hresolved hfd
    simp only [step, hphase, hb, hsocket, if_false, Bool.false_eq_true, hr, hprobe]
    rw [hprobe] at huses
    subst huses
    exact ⟨rfl, rfl⟩

/-! ## What a step can do -/

/-- **A step of the thread**: it goes to another place and only opens a descriptor, or a probe ends. -/
inductive Steps (hc : HealthChecker) : HealthChecker × List CheckAct → Prop
  | goes {phase : Checking} (calls : List (Call ℤ (Bytes × ℤ)))
    (h : phase.current = hc.phase.current ∨
      hc.phase.current = none ∧ phase.current = some 0 ∧ hc.running = true ∧ hc.backends ≠ []) :
    Steps hc ({ hc with phase }, calls.map .call)
  | settles {i : ℕ} {b : Backend} {ok : Bool} (calls : List (Call ℤ (Bytes × ℤ)))
    (hcurrent : hc.phase.current = some i) (hb : hc.backends[i]? = some b) :
    Steps hc ((hc.settle i b ok).1, calls.map .call ++ (hc.settle i b ok).2)

theorem steps_step (hc : HealthChecker) (r : ProbeResults) : Steps hc (hc.step r) := by
  have hstay : Steps hc (hc, []) := .goes [] (.inl rfl)
  unfold step
  split
  · exact hstay
  · rename_i hphase
    split
    · rename_i hrunning
      by_cases hnil : hc.backends = []
      · rw [if_pos hnil]
        exact .goes [] (.inl (by rw [hphase]; rfl))
      · rw [if_neg hnil]
        exact .goes [] (.inr ⟨by rw [hphase]; rfl, rfl, hrunning, hnil⟩)
    · exact .goes [] (.inl (by rw [hphase]; rfl))
  · rename_i i hphase
    split
    · exact hstay
    · rename_i b hb
      split
      · exact .settles [] (by rw [hphase]; rfl) hb
      · exact .goes [_] (.inl (by rw [hphase]; rfl))
  · rename_i i fd hphase
    split
    · exact hstay
    · rename_i b hb
      exact .settles _ (by rw [hphase]; rfl) hb
  · rename_i hphase
    exact .goes [] (.inl (by rw [hphase]; rfl))
  · exact hstay

/-- **The rule for a signal**: what is kept when the thread goes to another place, and when a probe ends, is
kept by every signal. -/
theorem next_rule {I : HealthChecker → List CheckAct → Prop} {hc : HealthChecker} {log : List CheckAct}
    (hgoes : ∀ {phase running} (calls : List (Call ℤ (Bytes × ℤ))),
      phase.current = hc.phase.current ∨
        hc.phase.current = none ∧ phase.current = some 0 ∧ hc.backends ≠ [] →
      I { hc with phase, running } (log ++ calls.map .call))
    (hsettles : ∀ {i b} (ok : Bool) (calls : List (Call ℤ (Bytes × ℤ))), hc.phase.current = some i →
      hc.backends[i]? = some b →
      I (hc.settle i b ok).1 (log ++ (calls.map .call ++ (hc.settle i b ok).2)))
    (e : CheckSignal) : I (hc.next e).1 (log ++ (hc.next e).2) := by
  cases e with
  | start =>
    simp only [next]
    split
    · rename_i hphase
      exact hgoes [] (.inl (by rw [hphase]; rfl))
    · exact hgoes [] (.inl rfl)
  | stop => exact hgoes [] (.inl rfl)
  | step r =>
    have hsteps := steps_step hc r
    rw [next]
    generalize hc.step r = next at hsteps
    cases hsteps with
    | goes calls hphase => exact hgoes calls (hphase.imp_right fun hnew => ⟨hnew.1, hnew.2.1, hnew.2.2.2⟩)
    | settles calls hcurrent hb => exact hsettles _ calls hcurrent hb

/-! ## The log -/

/-- The verdicts on a backend. -/
def verdicts (i : ℕ) (log : List CheckAct) : List Bool :=
  log.filterMap fun
    | .probed j ok => if j = i then some ok else none
    | _ => none

/-- What was logged about a backend. -/
def lines (i : ℕ) (log : List CheckAct) : List (Bytes × Bytes) :=
  log.filterMap fun
    | .logged j msg fields => if j = i then some (msg, fields) else none
    | _ => none

/-- The backends in the order in which they were probed. -/
def probes (log : List CheckAct) : List ℕ :=
  log.filterMap fun
    | .probed i _ => some i
    | _ => none

theorem verdicts_append (i : ℕ) (log acts : List CheckAct) :
    verdicts i (log ++ acts) = verdicts i log ++ verdicts i acts := List.filterMap_append

theorem lines_append (i : ℕ) (log acts : List CheckAct) :
    lines i (log ++ acts) = lines i log ++ lines i acts := List.filterMap_append

theorem probes_append (log acts : List CheckAct) : probes (log ++ acts) = probes log ++ probes acts :=
  List.filterMap_append

section Calls

variable (calls : List (Call ℤ (Bytes × ℤ)))

theorem verdicts_calls (i : ℕ) : verdicts i (calls.map .call) = [] := by simp [verdicts]

theorem lines_calls (i : ℕ) : lines i (calls.map .call) = [] := by simp [lines]

theorem probes_calls : probes (calls.map .call) = [] := by simp [probes]

end Calls

section Settle

variable (hc : HealthChecker) (i : ℕ) (b : Backend) (ok : Bool)

theorem verdicts_settle (j : ℕ) : verdicts j (hc.settle i b ok).2 = if i = j then [ok] else [] := by
  simp only [settle]
  by_cases hj : i = j <;> split <;> simp [verdicts, hj]

theorem lines_settle (j : ℕ) :
    lines j (hc.settle i b ok).2 = if i = j ∧ b.healthy ≠ ok then [healthLine b ok] else [] := by
  simp only [settle]
  by_cases hj : i = j <;> by_cases hhealthy : b.healthy = ok <;> simp [lines, hj, hhealthy]

theorem probes_settle : probes (hc.settle i b ok).2 = [i] := by
  simp only [settle]
  split <;> simp [probes]

end Settle

/-! ## Every run -/

theorem destutter'_concat (was : Bool) (l : List Bool) (ok : Bool) :
    (l ++ [ok]).destutter' (· ≠ ·) was
      = l.destutter' (· ≠ ·) was ++ if l.getLastD was ≠ ok then [ok] else [] := by
  induction l generalizing was with
  | nil =>
    by_cases h : was = ok
    · simp [h]
    · simp [h]
  | cons a l ih =>
    rw [List.cons_append, List.getLastD_cons]
    by_cases h : was = a
    · subst h
      rw [List.destutter'_cons_neg _ (not_not.mpr rfl), List.destutter'_cons_neg _ (not_not.mpr rfl), ih]
    · rw [List.destutter'_cons_pos _ h, List.destutter'_cons_pos _ h, ih, List.cons_append]

/-- **The backends are probed in turn.** -/
structure InTurn (n : ℕ) (hc : HealthChecker) (log : List CheckAct) : Prop where
  size : hc.backends.length = n
  current_lt : ∀ i, hc.phase.current = some i → i < n
  turn : (probes log).length % n = hc.phase.current.getD 0
  probes : probes log = (List.range (probes log).length).map (· % n)

/-- **The flags and the lines follow the verdicts.** -/
structure Follows (hc : HealthChecker) (log : List CheckAct) : Prop where
  healthy : ∀ i b, hc.backends[i]? = some b → b.healthy = (verdicts i log).getLastD true
  lines : ∀ i b, hc.backends[i]? = some b →
    lines i log = ((verdicts i log).destutter' (· ≠ ·) true).tail.map (healthLine b)

section Invariants

variable {n : ℕ} {hc : HealthChecker} {log : List CheckAct}

theorem InTurn.goes (h : InTurn n hc log) {phase : Checking} {running : Bool}
    (calls : List (Call ℤ (Bytes × ℤ)))
    (hphase : phase.current = hc.phase.current ∨
      hc.phase.current = none ∧ phase.current = some 0 ∧ hc.backends ≠ []) :
    InTurn n { hc with phase, running } (log ++ calls.map .call) := by
  have hprobes : HealthChecker.probes (log ++ calls.map .call) = HealthChecker.probes log := by
    rw [probes_append, probes_calls, List.append_nil]
  refine ⟨h.size, ?_, ?_, ?_⟩
  · intro i hi
    rcases hphase with hsame | ⟨-, hzero, hne⟩
    · exact h.current_lt i (hsame.symm.trans hi)
    · obtain rfl : 0 = i := Option.some.inj (hzero.symm.trans hi)
      exact h.size ▸ List.length_pos_iff.mpr hne
  · rw [hprobes, h.turn]
    rcases hphase with hsame | ⟨hnone, hzero, -⟩
    · rw [hsame]
    · rw [hnone, hzero]
      rfl
  · rw [hprobes]
    exact h.probes

theorem InTurn.settles (h : InTurn n hc log) {i : ℕ} {b : Backend} (ok : Bool)
    (calls : List (Call ℤ (Bytes × ℤ))) (hcurrent : hc.phase.current = some i) :
    InTurn n (hc.settle i b ok).1 (log ++ (calls.map .call ++ (hc.settle i b ok).2)) := by
  have hprobes : HealthChecker.probes (log ++ (calls.map .call ++ (hc.settle i b ok).2))
      = HealthChecker.probes log ++ [i] := by
    rw [probes_append, probes_append, probes_calls, List.nil_append, probes_settle]
  have hlt : i < n := h.current_lt i hcurrent
  have hturn : (HealthChecker.probes log).length % n = i := by rw [h.turn, hcurrent]; rfl
  refine ⟨by simpa [settle] using h.size, ?_, ?_, ?_⟩
  · intro j hj
    simp only [settle, afterProbe, h.size] at hj
    split at hj
    · rename_i hnext
      obtain rfl : i + 1 = j := Option.some.inj hj
      exact hnext
    · simp [Checking.current] at hj
  · rw [hprobes, List.length_append, List.length_singleton, Nat.add_mod, hturn]
    simp only [settle, afterProbe, h.size]
    split
    · rename_i hnext
      rw [Nat.add_mod_mod, Nat.mod_eq_of_lt hnext]
      rfl
    · rename_i hlast
      obtain rfl : n = i + 1 := by omega
      simp [Checking.current]
  · rw [hprobes, List.length_append, List.length_singleton, List.range_succ, List.map_append, ← h.probes,
      List.map_singleton, hturn]

theorem Follows.goes (h : Follows hc log) {phase : Checking} {running : Bool}
    (calls : List (Call ℤ (Bytes × ℤ))) :
    Follows { hc with phase, running } (log ++ calls.map .call) := by
  have hverdicts : ∀ i, verdicts i (log ++ calls.map .call) = verdicts i log := fun i => by
    rw [verdicts_append, verdicts_calls, List.append_nil]
  have hlines : ∀ i, HealthChecker.lines i (log ++ calls.map .call) = HealthChecker.lines i log :=
    fun i => by rw [lines_append, lines_calls, List.append_nil]
  refine ⟨?_, ?_⟩
  · simpa only [hverdicts] using h.healthy
  · simpa only [hverdicts, hlines] using h.lines

theorem Follows.settles (h : Follows hc log) {i : ℕ} {b : Backend} (ok : Bool)
    (calls : List (Call ℤ (Bytes × ℤ))) (hb : hc.backends[i]? = some b) :
    Follows (hc.settle i b ok).1 (log ++ (calls.map .call ++ (hc.settle i b ok).2)) := by
  have hverdicts : ∀ j, verdicts j (log ++ (calls.map .call ++ (hc.settle i b ok).2))
      = verdicts j log ++ if i = j then [ok] else [] := fun j => by
    rw [verdicts_append, verdicts_append, verdicts_calls, List.nil_append, verdicts_settle]
  have hlines : ∀ j, HealthChecker.lines j (log ++ (calls.map .call ++ (hc.settle i b ok).2))
      = HealthChecker.lines j log ++ if i = j ∧ b.healthy ≠ ok then [healthLine b ok] else [] :=
    fun j => by rw [lines_append, lines_append, lines_calls, List.nil_append, lines_settle]
  -- the backend that was probed, or another one, which is as before
  have hcases : ∀ j b', (hc.settle i b ok).1.backends[j]? = some b' →
      (i = j ∧ b' = { b with healthy := ok }) ∨ (i ≠ j ∧ hc.backends[j]? = some b') := by
    intro j b' hb'
    simp only [settle, List.getElem?_modify] at hb'
    by_cases hij : i = j
    · subst hij
      refine .inl ⟨rfl, ?_⟩
      simpa [hb] using hb'.symm
    · exact .inr ⟨hij, by simpa [hij] using hb'⟩
  refine ⟨?_, ?_⟩
  · intro j b' hb'
    rw [hverdicts]
    rcases hcases j b' hb' with ⟨rfl, rfl⟩ | ⟨hij, hold⟩
    · simp
    · simpa [hij] using h.healthy j b' hold
  · intro j b' hb'
    rw [hverdicts, hlines]
    rcases hcases j b' hb' with ⟨rfl, rfl⟩ | ⟨hij, hold⟩
    · have hkept : (verdicts i log).destutter' (· ≠ ·) true ≠ [] := List.destutter'_ne_nil _ _
      rw [if_pos rfl, destutter'_concat, ← h.healthy i b hb, h.lines i b hb,
        List.tail_append_of_ne_nil hkept, List.map_append]
      congr 1
      by_cases hsame : b.healthy = ok
      · simp [hsame]
      · simp only [hsame, ne_eq, not_false_eq_true, and_self, if_true]
        rfl
    · simpa [hij] using h.lines j b' hold

end Invariants

theorem inTurn_run (path : Bytes) (backends : List Backend) (es : List CheckSignal) :
    InTurn backends.length (Reactive.run next { path, backends } es).1
      (Reactive.run next { path, backends } es).2 := by
  refine Reactive.run_invariant ⟨rfl, by simp [Checking.current], rfl, rfl⟩ (fun _ _ e h => ?_) es
  exact next_rule h.goes (fun ok calls hcurrent _ => h.settles ok calls hcurrent) e

/-- **Health flags follow the probes.** In every run of the health checker over backends that are healthy at
first, with any results of the system calls and with `start` and `stop` at any time: the backends are probed
in turn, round after round; the flag of a backend is the verdict of its last probe; and a line is logged for
each change of its verdicts and for nothing else. -/
theorem health_follows_probes (path : Bytes) (backends : List Backend)
    (hhealthy : ∀ b ∈ backends, b.healthy = true) (es : List CheckSignal) :
    let r := Reactive.run next { path, backends } es
    (∃ k, probes r.2 = (List.range k).map (· % backends.length)) ∧
    ∀ i b, r.1.backends[i]? = some b →
      b.healthy = (verdicts i r.2).getLastD true ∧
      lines i r.2 = ((verdicts i r.2).destutter' (· ≠ ·) true).tail.map (healthLine b) := by
  intro r
  have hturn : InTurn backends.length r.1 r.2 := inTurn_run path backends es
  have hfollows : Follows r.1 r.2 := by
    refine Reactive.run_invariant ⟨fun i b hb => hhealthy b (List.mem_of_getElem? hb), fun _ _ _ => rfl⟩
      (fun _ _ e h => ?_) es
    exact next_rule (fun calls _ => h.goes calls) (fun ok calls _ hb => h.settles ok calls hb) e
  exact ⟨⟨_, hturn.probes⟩, fun i b hb => ⟨hfollows.healthy i b hb, hfollows.lines i b hb⟩⟩

/-- No address is found. -/
def unresolved : ProbeResults :=
  { resolved := false, socket := 0, connect := .failed, ready := 0, soError := 0, send := fun _ => 0,
    readable := 0, reply := [] }

/-- The backend accepts the connection and sends a reply. -/
def replies (reply : Bytes) : ProbeResults :=
  { resolved := true, socket := 7, connect := .inProgress, ready := 1, soError := 0,
    send := fun request => request.length, readable := 1, reply }

def probedBackend : Backend where
  host := bytes "a"
  port := 80
  circuitBreaker := { failureThreshold := 1, resetTimeout := 1 }

/-- A backend that is not found in the first round, and answers in the second one. -/
def comesBack : List CheckSignal :=
  [.start, .step unresolved, .step unresolved, .step unresolved, .step unresolved,
    .step (replies (bytes "HTTP/1.1 204 No Content\r\n")),
    .step (replies (bytes "HTTP/1.1 204 No Content\r\n"))]

theorem health_follows_probes_comesBack :
    let r := Reactive.run next { path := bytes "/health", backends := [probedBackend] } comesBack
    verdicts 0 r.2 = [false, true] ∧
      lines 0 r.2 = [healthLine probedBackend false, healthLine probedBackend true] := by
  intro r
  have hverdicts : verdicts 0 r.2 = [false, true] := by decide
  obtain ⟨-, hlines⟩ := (health_follows_probes (bytes "/health") [probedBackend] (by simp [probedBackend])
    comesBack).2 0 probedBackend rfl
  refine ⟨hverdicts, hlines.trans ?_⟩
  rw [hverdicts]
  rfl

/-! ## Stopping -/

/-- The probes of the round that are left, with the one that is going on. -/
def left (hc : HealthChecker) : ℕ := hc.phase.current.elim 0 fun i => hc.backends.length - i

/-- The steps that are left, if `running_` is false. -/
def due (hc : HealthChecker) : ℕ :=
  match hc.phase with
  | .unstarted => 0
  | .top => 1
  | .probing i => 2 * (hc.backends.length - i) + 2
  | .connecting i _ => 2 * (hc.backends.length - i) + 1
  | .waiting => 2
  | .finished => 0

/-- `running_` is false, and the thread is at a backend that exists, or at none. -/
structure Stopped (hc : HealthChecker) : Prop where
  running : hc.running = false
  current_lt : ∀ i, hc.phase.current = some i → i < hc.backends.length

theorem due_settle {hc : HealthChecker} {i : ℕ} (b : Backend) (ok : Bool) (hlt : i < hc.backends.length) :
    (hc.settle i b ok).1.due = 2 * (hc.backends.length - i) := by
  have hlen : (hc.settle i b ok).1.backends.length = hc.backends.length := by simp [settle]
  have hphase : (hc.settle i b ok).1.phase = hc.afterProbe i := rfl
  rw [due, hphase, hlen, afterProbe]
  by_cases hnext : i + 1 < hc.backends.length
  · simp only [if_pos hnext]
    omega
  · simp only [if_neg hnext]
    omega

namespace Stopped

variable {hc : HealthChecker} (h : Stopped hc)
include h

/-- A step of the thread goes nowhere new, or ends a probe. -/
theorem step (r : ProbeResults) :
    Stopped (hc.step r).1 ∧ (hc.step r).1.backends.length = hc.backends.length ∧
      (probes (hc.step r).2).length + (hc.step r).1.left ≤ hc.left := by
  have hsteps := steps_step hc r
  generalize hc.step r = next at hsteps
  cases hsteps with
  | goes calls hphase =>
    rcases hphase with hsame | ⟨-, -, hrunning, -⟩
    · refine ⟨⟨h.running, fun i hi => h.current_lt i (hsame.symm.trans hi)⟩, rfl, ?_⟩
      simp [probes_calls, left, hsame]
    · exact absurd hrunning (by simp [h.running])
  | @settles i b ok calls hcurrent hb =>
    have hlt := h.current_lt i hcurrent
    have hlen : (hc.settle i b ok).1.backends.length = hc.backends.length := by simp [settle]
    have hphase : (hc.settle i b ok).1.phase = hc.afterProbe i := rfl
    rw [probes_append, probes_calls, probes_settle, left, left, hcurrent, hlen, hphase, afterProbe]
    by_cases hnext : i + 1 < hc.backends.length
    · rw [if_pos hnext]
      refine ⟨⟨h.running, fun j hj => ?_⟩, rfl, ?_⟩
      · rw [hphase, afterProbe, if_pos hnext] at hj
        obtain rfl : i + 1 = j := Option.some.inj hj
        exact hlen ▸ hnext
      · simp only [Checking.current, Option.elim_some, List.nil_append, List.length_singleton]
        omega
    · rw [if_neg hnext]
      refine ⟨⟨h.running, fun j hj => ?_⟩, rfl, ?_⟩
      · rw [hphase, afterProbe, if_neg hnext] at hj
        cases hj
      · simp only [Checking.current, Option.elim_some, Option.elim_none, List.nil_append,
          List.length_singleton]
        omega

/-- A step brings the thread closer to its end. -/
theorem due_step (r : ProbeResults) : (hc.step r).1.due ≤ hc.due - 1 := by
  have hbackend : ∀ i, hc.phase.current = some i →
      ∃ b, hc.backends[i]? = some b ∧ ∀ ok, (hc.settle i b ok).1.due = 2 * (hc.backends.length - i) :=
    fun i hi => ⟨_, List.getElem?_eq_getElem (h.current_lt i hi), fun ok =>
      due_settle _ ok (h.current_lt i hi)⟩
  rw [HealthChecker.step, due.eq_def hc]
  cases hphase : hc.phase with
  | unstarted =>
    show hc.due ≤ 0
    rw [due, hphase]
  | top => simp [h.running, due]
  | probing i =>
    obtain ⟨b, hb, hsettle⟩ := hbackend i (by rw [hphase]; rfl)
    simp only [hb]
    split
    · rw [hsettle]
      omega
    · exact le_rfl
  | connecting i fd =>
    obtain ⟨b, hb, hsettle⟩ := hbackend i (by rw [hphase]; rfl)
    simp only [hb, hsettle]
    omega
  | waiting => exact le_rfl
  | finished =>
    show hc.due ≤ 0
    rw [due, hphase]

/-- A signal other than `start`. -/
theorem next {e : CheckSignal} (he : e ≠ .start) :
    Stopped (hc.next e).1 ∧ (hc.next e).1.backends.length = hc.backends.length ∧
      (probes (hc.next e).2).length + (hc.next e).1.left ≤ hc.left ∧
      (hc.next e).1.due ≤ hc.due - if e.isStep then 1 else 0 := by
  cases e with
  | start => exact absurd rfl he
  | stop => exact ⟨⟨rfl, h.current_lt⟩, rfl, (Nat.zero_add _).le, le_rfl⟩
  | step r =>
    obtain ⟨hstopped, hlen, hleft⟩ := h.step r
    exact ⟨hstopped, hlen, hleft, h.due_step r⟩

/-- The signals after `stop`. -/
theorem run {es : List CheckSignal} (hes : ∀ e ∈ es, e ≠ .start) :
    let r := Reactive.run HealthChecker.next hc es
    (probes r.2).length + r.1.left ≤ hc.left ∧ r.1.due ≤ hc.due - es.countP CheckSignal.isStep := by
  induction es generalizing hc with
  | nil => exact ⟨(Nat.zero_add _).le, le_rfl⟩
  | cons e es ih =>
    obtain ⟨he, hes⟩ := List.forall_mem_cons.mp hes
    obtain ⟨hstopped, -, hleft, hdue⟩ := h.next he
    obtain ⟨hleft', hdue'⟩ := ih hstopped hes
    rw [Reactive.run_cons]
    refine ⟨?_, ?_⟩
    · rw [probes_append, List.length_append]
      dsimp only
      omega
    · rw [List.countP_cons]
      dsimp only
      omega

end Stopped

theorem due_le (hc : HealthChecker) : hc.due ≤ 2 * hc.backends.length + 2 := by
  unfold due
  split <;> omega

/-- A thread without a step to take has not been started, or has returned. -/
theorem phase_of_due_eq_zero {hc : HealthChecker} (h : hc.due = 0) :
    hc.phase = .unstarted ∨ hc.phase = .finished := by
  unfold due at h
  split at h
  · exact .inl ‹_›
  · omega
  · omega
  · omega
  · omega
  · exact .inr ‹_›

/-- **`stop` ends the probing.** In every run of the health checker, from any moment at which `running_` is
false and as long as `start` is not called again: not more backends are probed than are left of the round, so
that no round begins, and after as many steps as two for each backend and two more the thread has
returned, if there was one. -/
theorem stop_ends_probing (path : Bytes) (backends : List Backend) (es es' : List CheckSignal)
    (hstopped : (Reactive.run next { path, backends } es).1.running = false)
    (hes' : ∀ e ∈ es', e ≠ .start) :
    let r := Reactive.run next { path, backends } es
    let r' := Reactive.run next r.1 es'
    (probes r'.2).length ≤ r.1.left ∧
    (2 * backends.length + 2 ≤ es'.countP CheckSignal.isStep →
      r'.1.phase = .unstarted ∨ r'.1.phase = .finished) := by
  intro r r'
  have hturn : InTurn backends.length r.1 r.2 := inTurn_run path backends es
  have h : Stopped r.1 := ⟨hstopped, fun i hi => hturn.size ▸ hturn.current_lt i hi⟩
  obtain ⟨hleft, hdue⟩ : (probes r'.2).length + r'.1.left ≤ r.1.left ∧
      r'.1.due ≤ r.1.due - es'.countP CheckSignal.isStep := h.run hes'
  refine ⟨(Nat.le_add_right _ _).trans hleft, fun hsteps => phase_of_due_eq_zero ?_⟩
  have hle := due_le r.1
  rw [hturn.size] at hle
  omega

/-- `stop` comes when the first of two backends is about to be probed. -/
theorem stop_ends_probing_firstOfTwo :
    let r := Reactive.run next { path := bytes "/health", backends := [probedBackend, probedBackend] }
      [.start, .step unresolved, .stop]
    let r' := Reactive.run next r.1 (List.replicate 6 (.step unresolved))
    (probes r'.2).length ≤ 2 ∧ (r'.1.phase = .unstarted ∨ r'.1.phase = .finished) := by
  obtain ⟨hleft, hend⟩ := stop_ends_probing (bytes "/health") [probedBackend, probedBackend]
    [.start, .step unresolved, .stop] (List.replicate 6 (.step unresolved)) rfl
    fun e he => by simp [List.eq_of_mem_replicate he]
  exact ⟨hleft, hend (by decide)⟩

end HealthChecker

end ApiGateway.Network
