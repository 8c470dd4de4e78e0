import ApiGateway.Common.Progress
import ApiGateway.Core.Lifecycle
import Mathlib.Algebra.BigOperators.Group.Finset.Basic
import Mathlib.Algebra.BigOperators.Group.Finset.Piecewise
import Mathlib.Algebra.Order.BigOperators.Group.Finset

/-!
# The end of `run`

Once `running_` has been reset there is always a thread that can move: a handler waits for nothing but the health
checker, and has told it to leave before; `run` and `~Gateway` wait for a thread only when its flag is down. Each such
move takes away from what is left to do, and no other move adds to it. So `run` returns (`shutdown_completes`), if every
thread is scheduled again and again, every iteration of a loop comes to its end, and all threads have been started.

Reference: `Gateway::run` and `Gateway::stop` in `src/core/Gateway.cpp`, `HealthChecker::stop` in
`src/network/HealthChecker.cpp`.
-/

namespace ApiGateway.Core.Lifecycle

/-! ## What is left to do -/

namespace Looping

/-- The steps that are left of a thread. -/
def left : Looping → ℕ
  | unstarted => 3
  | looping => 2
  | leaving => 1
  | finished => 0

end Looping

/-- The steps that are left of a handler. -/
def StopAt.left : StopAt → ℕ
  | exchange => 3
  | unsetChecking => 2
  | joinChecker => 1

/-- The steps that are left of `~Gateway`, those of its `stop` included. -/
def DestroyAt.left : DestroyAt → ℕ
  | stop => 7
  | destroyThreads => 3
  | unsetChecking => 2
  | joinChecker => 1
  | exited => 0

/-- The threads of the process. -/
def threads (n : ℕ) : Finset Thread := {.main, .metrics, .checker} ∪ (Finset.range n).image .worker

namespace Life

/-- The steps that are left of a thread and its handlers. -/
def weight (s : Life) (t : Thread) : ℕ := (s.loops t).left + ((s.handlers t).map StopAt.left).foldr (· + ·) 0

/-- The steps that are left. -/
def left (n : ℕ) (s : Life) : ℕ :=
  if s.terminated then 0
  else 12 + 2 * n - s.run.clock n + (s.destroying.map DestroyAt.left).getD 0 + ∑ t ∈ threads n, s.weight t

end Life

theorem mem_threads_of_startTime {n : ℕ} {t : Thread} {k : ℕ} (h : startTime n t = some k) : t ∈ threads n := by
  cases t with
  | main => cases h
  | worker i =>
    rw [startTime, Option.ite_none_right_eq_some] at h
    simp [threads, h.1]
  | _ => simp [threads]

section Less

variable {n : ℕ} {s s' : Life}

theorem left_of_not_terminated (h : s.terminated = false) :
    s.left n
      = 12 + 2 * n - s.run.clock n + (s.destroying.map DestroyAt.left).getD 0 + ∑ t ∈ threads n, s.weight t := by
  rw [Life.left, h, if_neg Bool.false_ne_true]

/-- A process that has ended has nothing left to do. -/
theorem left_le : s.left n
    ≤ 12 + 2 * n - s.run.clock n + (s.destroying.map DestroyAt.left).getD 0 + ∑ t ∈ threads n, s.weight t := by
  rw [Life.left]
  split
  · exact Nat.zero_le _
  · exact le_rfl

theorem left_lt_of_weight (hterm : s.terminated = false) (hrun : s'.run = s.run) (hsame : s'.destroying = s.destroying)
    {t : Thread} (ht : t ∈ threads n) (hother : ∀ u, u ≠ t → s'.weight u = s.weight u)
    (hlt : s'.weight t < s.weight t) : s'.left n < s.left n := by
  have hsum : ∑ u ∈ threads n, s'.weight u < ∑ u ∈ threads n, s.weight u := by
    refine Finset.sum_lt_sum (fun u _ => ?_) ⟨t, ht, hlt⟩
    by_cases heq : u = t
    · rw [heq]
      exact hlt.le
    · exact (hother u heq).le
  refine left_le.trans_lt ?_
  rw [left_of_not_terminated hterm, hrun, hsame]
  omega

theorem left_lt_of_clock (hterm : s.terminated = false) (hsame : s'.destroying = s.destroying)
    (hclock : s'.run.clock n = s.run.clock n + 1)
    (hle : s.run.clock n < 11 + 2 * n) (hweight : ∀ u, s'.weight u ≤ s.weight u) : s'.left n < s.left n := by
  have hsum : ∑ u ∈ threads n, s'.weight u ≤ ∑ u ∈ threads n, s.weight u := Finset.sum_le_sum fun u _ => hweight u
  refine left_le.trans_lt ?_
  rw [left_of_not_terminated hterm, hclock, hsame]
  omega

/-- A step of `~Gateway`, which may put `k` steps on the stack of the main thread. -/
theorem left_lt_of_destroying (hterm : s.terminated = false) (hrun : s'.run = s.run) {d d' : DestroyAt}
    (hd : s.destroying = some d) (hd' : s'.destroying = some d') {k : ℕ} (hlt : d'.left + k < d.left)
    (hweight : ∀ u, s'.weight u ≤ s.weight u + if u = .main then k else 0) : s'.left n < s.left n := by
  have hmain : .main ∈ threads n := by simp [threads]
  have hsum : ∑ u ∈ threads n, s'.weight u ≤ ∑ u ∈ threads n, s.weight u + k :=
    calc ∑ u ∈ threads n, s'.weight u ≤ ∑ u ∈ threads n, (s.weight u + if u = .main then k else 0) :=
          Finset.sum_le_sum fun u _ => hweight u
      _ = ∑ u ∈ threads n, s.weight u + k := by
          rw [Finset.sum_add_distrib, Finset.sum_ite_eq', if_pos hmain]
  refine left_le.trans_lt ?_
  rw [left_of_not_terminated hterm, hrun, hd, hd']
  simp only [Option.map_some, Option.getD_some]
  omega

/-- A step of `~Gateway` that leaves the threads alone. -/
theorem left_lt_of_descending (hterm : s.terminated = false) (hrun : s'.run = s.run) {d d' : DestroyAt}
    (hd : s.destroying = some d) (hd' : s'.destroying = some d') (hlt : d'.left < d.left)
    (hloops : s'.loops = s.loops) (hhandlers : s'.handlers = s.handlers) : s'.left n < s.left n := by
  refine left_lt_of_destroying (k := 0) hterm hrun hd hd' hlt fun u => ?_
  rw [Life.weight, Life.weight, hloops, hhandlers]
  exact Nat.le_add_right _ _

theorem left_lt_of_terminated (hterm : s.terminated = false) (hterm' : s'.terminated = true)
    (hle : s.run.clock n ≤ 11 + 2 * n) : s'.left n < s.left n := by
  rw [left_of_not_terminated hterm, Life.left, hterm', if_pos rfl]
  omega

end Less

theorem clock_le {n : ℕ} {pos : RunAt} (h : pos.index ≤ n) : pos.clock n ≤ 11 + 2 * n := by
  cases pos with
  | startWorkers i =>
    rw [RunAt.index] at h
    rw [RunAt.clock]
    omega
  | joinWorkers i =>
    rw [RunAt.index] at h
    rw [RunAt.clock]
    omega
  | returned => exact le_rfl
  | _ =>
    rw [RunAt.clock]
    omega

theorem weight_setHandlers (s : Life) (t : Thread) (l : List StopAt) (u : Thread) :
    (s.setHandlers t l).weight u
      = if u = t then (s.loops t).left + (l.map StopAt.left).foldr (· + ·) 0 else s.weight u := by
  split
  · rename_i heq
    subst heq
    simp [Life.weight, Life.setHandlers]
  · rename_i hne
    simp [Life.weight, Life.setHandlers, hne]

theorem weight_setLoop (s : Life) (t : Thread) (l : Looping) (u : Thread) :
    (s.setLoop t l).weight u
      = if u = t then l.left + ((s.handlers t).map StopAt.left).foldr (· + ·) 0 else s.weight u := by
  split
  · rename_i heq
    subst heq
    simp [Life.weight, Life.setLoop]
  · rename_i hne
    simp [Life.weight, Life.setLoop, hne]

theorem setLoop_self (s : Life) (t : Thread) : s.setLoop t (s.loops t) = s := by
  rw [Life.setLoop, Function.update_eq_self]

namespace Inv

variable {n : ℕ} {s : Life} {log : List Act}

theorem mem_threads (h : Inv n s log) {t : Thread}
    (ht : t = .main ∨ s.loops t = .looping ∨ s.loops t = .leaving) : t ∈ threads n := by
  rcases ht with rfl | ht
  · simp [threads]
  · obtain ⟨k, hk⟩ := h.startTime_of_loop ht
    exact mem_threads_of_startTime hk

theorem unstarted (h : Inv n s log) {t : Thread} (ht : startTime n t = some (s.run.clock n)) :
    s.loops t = .unstarted := by
  by_contra hne
  obtain ⟨k, hk, hlt⟩ := (h.placed.started t).mp hne
  rw [ht, Option.some.injEq] at hk
  omega

/-- The stack of a thread gets smaller. -/
theorem left_setHandlers (h : Inv n s log) (hterm : s.terminated = false) {s' : Life} {t : Thread}
    {x : StopAt} {rest l : List StopAt} (hstack : s.handlers t = x :: rest) (hloops : s'.loops = s.loops)
    (hhandlers : s'.handlers = s.handlers) (hrun : s'.run = s.run) (hdestroying : s'.destroying = s.destroying)
    (hl : (l.map StopAt.left).foldr (· + ·) 0 < x.left + (rest.map StopAt.left).foldr (· + ·) 0) :
    (s'.setHandlers t l).left n < s.left n := by
  have ht : t ∈ threads n := h.mem_threads (h.alive t (by simp [hstack]))
  have hsame : ∀ u, s'.weight u = s.weight u := fun u => by rw [Life.weight, Life.weight, hloops, hhandlers]
  refine left_lt_of_weight hterm hrun hdestroying ht (fun u hu => ?_) ?_
  · rw [weight_setHandlers, if_neg hu, hsame]
  · rw [weight_setHandlers, if_pos rfl, hloops, Life.weight, hstack]
    simpa using hl

/-- A handler moves on, or waits. -/
theorem stop_lazy (h : Inv n s log) (hterm : s.terminated = false) (hrunning : s.running = false) {t : Thread}
    {x : StopAt} {rest : List StopAt} (hstack : s.handlers t = x :: rest) :
    (s.stop t rest x).1 = s ∧ x = .joinChecker ∧ s.joinable = true ∧ t ≠ .checker ∧ s.loops .checker ≠ .finished ∨
      (s.stop t rest x).1.left n < s.left n := by
  cases x with
  | exchange =>
    refine .inr ?_
    simp only [Life.stop, hrunning, Bool.false_eq_true, if_false]
    exact h.left_setHandlers hterm hstack rfl rfl rfl rfl (by simp [StopAt.left])
  | unsetChecking =>
    refine .inr ?_
    simp only [Life.stop]
    exact h.left_setHandlers hterm hstack rfl rfl rfl rfl (by simp [StopAt.left])
  | joinChecker =>
    rw [Life.stop]
    split
    · rename_i hj
      split
      · exact .inr (left_lt_of_terminated hterm rfl (clock_le h.index))
      · rename_i hne
        split
        · exact .inr (h.left_setHandlers hterm hstack rfl rfl rfl rfl (by simp [StopAt.left]))
        · rename_i hloop
          exact .inl ⟨rfl, rfl, hj, hne, hloop⟩
    · exact .inr (h.left_setHandlers hterm hstack rfl rfl rfl rfl (by simp [StopAt.left]))

/-- A thread starts. -/
theorem weight_start_le (h : Inv n s log) {t : Thread} (ht : startTime n t = some (s.run.clock n)) (u : Thread) :
    (s.setLoop t .looping).weight u ≤ s.weight u := by
  rw [weight_setLoop]
  split
  · rename_i heq
    rw [Life.weight, heq, h.unstarted ht]
    simp [Looping.left]
  · exact le_rfl

/-- `run` moves on, or waits for a thread. -/
theorem goOn_lazy (h : Inv n s log) (hterm : s.terminated = false) :
    (s.goOn n).1 = s ∧ (s.run = .returned ∨ ∃ t, joinTime n t = some (s.run.clock n) ∧ s.loops t ≠ .finished) ∨
      (s.goOn n).1.left n < s.left n := by
  have hindex := h.index
  cases hrun : s.run with
  | returned => exact .inl ⟨by rw [Life.goOn, hrun], .inl rfl⟩
  | startChecker =>
    refine .inr ?_
    rw [Life.goOn, hrun]
    exact left_lt_of_clock hterm rfl (by rw [hrun]; rfl) (by rw [hrun, RunAt.clock]; omega)
      (h.weight_start_le (t := .checker) (by rw [hrun]; rfl))
  | startMetrics =>
    refine .inr ?_
    rw [Life.goOn, hrun]
    exact left_lt_of_clock hterm rfl (by rw [hrun]; rfl) (by rw [hrun, RunAt.clock]; omega)
      (h.weight_start_le (t := .metrics) (by rw [hrun]; rfl))
  | startWorkers i =>
    refine .inr ?_
    rw [hrun, RunAt.index] at hindex
    simp only [Life.goOn, hrun]
    split
    · rename_i hi
      exact left_lt_of_clock hterm rfl (by rw [hrun]; rfl) (by rw [hrun, RunAt.clock]; omega)
        (h.weight_start_le (t := .worker i) (by rw [hrun, startTime, if_pos hi]; rfl))
    · refine left_lt_of_clock hterm rfl ?_ (by rw [hrun, RunAt.clock]; omega) (fun u => le_rfl)
      rw [hrun, RunAt.clock, RunAt.clock]
      omega
  | joinWorkers i =>
    rw [hrun, RunAt.index] at hindex
    simp only [Life.goOn, hrun]
    split
    · rename_i hi
      split
      · exact .inr (left_lt_of_clock hterm rfl (by rw [hrun]; rfl) (by rw [hrun, RunAt.clock]; omega) (fun u => le_rfl))
      · rename_i hloop
        exact .inl ⟨rfl, .inr ⟨.worker i, if_pos hi, hloop⟩⟩
    · refine .inr (left_lt_of_clock hterm rfl ?_ (by rw [hrun, RunAt.clock]; omega) (fun u => le_rfl))
      rw [hrun, RunAt.clock, RunAt.clock]
      omega
  | joinMetrics =>
    simp only [Life.goOn, hrun]
    split
    · exact .inr (left_lt_of_clock hterm rfl (by rw [hrun, RunAt.clock, RunAt.clock]; omega)
        (by rw [hrun, RunAt.clock]; omega) (fun u => le_rfl))
    · rename_i hloop
      exact .inl ⟨rfl, .inr ⟨.metrics, rfl, hloop⟩⟩
  | joinChecker =>
    simp only [Life.goOn, hrun]
    have hlt : ∀ s' : Life, s'.run = .closeAll → s'.destroying = s.destroying → s'.loops = s.loops →
        s'.handlers = s.handlers → s'.left n < s.left n := by
      intro s' hrun' hsame hloops hhandlers
      refine left_lt_of_clock hterm hsame ?_ (by rw [hrun, RunAt.clock]; omega) (fun u => ?_)
      · rw [hrun, hrun', RunAt.clock, RunAt.clock]
        omega
      · rw [Life.weight, Life.weight, hloops, hhandlers]
    split
    · split
      · exact .inr (hlt _ rfl rfl rfl rfl)
      · rename_i hloop
        exact .inl ⟨rfl, .inr ⟨.checker, rfl, hloop⟩⟩
    · exact .inr (hlt _ rfl rfl rfl rfl)
  | _ =>
    refine .inr ?_
    rw [Life.goOn, hrun]
    exact left_lt_of_clock hterm rfl (by grind [RunAt.clock]) (by rw [hrun, RunAt.clock]; omega) (fun u => le_rfl)

/-- `~Gateway` moves on, or waits for the health checker. -/
theorem destroy_lazy (h : Inv n s log) (hterm : s.terminated = false) (hmain : s.handlers .main = []) {d : DestroyAt}
    (hd : s.destroying = some d) :
    (s.destroy d).1 = s ∧ (d = .exited ∨ d = .joinChecker ∧ s.joinable = true ∧ s.loops .checker ≠ .finished) ∨
      (s.destroy d).1.left n < s.left n := by
  cases d with
  | stop =>
    refine .inr (left_lt_of_destroying (k := 3) hterm rfl hd rfl (by decide) fun u => ?_)
    rw [Life.destroy, weight_setHandlers]
    split
    · rename_i heq
      simp [Life.weight, heq, hmain, StopAt.left]
    · exact le_rfl
  | destroyThreads =>
    refine .inr ?_
    rw [Life.destroy]
    split
    · exact left_lt_of_descending hterm rfl hd rfl (by decide) rfl rfl
    · exact left_lt_of_terminated hterm rfl (clock_le h.index)
  | unsetChecking => exact .inr (left_lt_of_descending hterm rfl hd rfl (by decide) rfl rfl)
  | joinChecker =>
    rw [Life.destroy]
    split
    · rename_i hjoinable
      split
      · exact .inr (left_lt_of_descending hterm rfl hd rfl (by decide) rfl rfl)
      · rename_i hloop
        exact .inl ⟨rfl, .inr ⟨rfl, hjoinable, hloop⟩⟩
    · exact .inr (left_lt_of_descending hterm rfl hd rfl (by decide) rfl rfl)
  | exited => exact .inl ⟨rfl, .inl rfl⟩

/-- A thread that is not asked to go on leaves. -/
theorem left_setLoop (h : Inv n s log) (hterm : s.terminated = false) {t : Thread}
    (hloop : s.loops t = .looping ∧ s.flag t = false ∨ s.loops t = .leaving) :
    (s.setLoop t ((s.loops t).next (s.flag t))).left n < s.left n := by
  have ht : t ∈ threads n := h.mem_threads (.inr (hloop.imp_left And.left))
  refine left_lt_of_weight hterm rfl rfl ht (fun u hu => by rw [weight_setLoop, if_neg hu]) ?_
  rw [weight_setLoop, if_pos rfl, Life.weight]
  rcases hloop with ⟨hloop, hflag⟩ | hloop
  · simp [hloop, hflag, Looping.next, Looping.left]
  · simp [hloop, Looping.next, Looping.left]

theorem setLoop_lazy (h : Inv n s log) (hterm : s.terminated = false) (t : Thread) :
    s.setLoop t ((s.loops t).next (s.flag t)) = s ∨
      (s.setLoop t ((s.loops t).next (s.flag t))).left n < s.left n := by
  by_cases hloop : s.loops t = .looping ∧ s.flag t = false ∨ s.loops t = .leaving
  · exact .inr (h.left_setLoop hterm hloop)
  · have hnext : (s.loops t).next (s.flag t) = s.loops t := by
      cases hl : s.loops t with
      | looping =>
        have hflag : s.flag t = true := by simpa [hl] using hloop
        simp [hflag, Looping.next]
      | leaving => exact absurd (.inr hl) hloop
      | _ => rfl
    exact .inl (by rw [hnext, setLoop_self])

/-- A step of a thread changes nothing, or brings the end nearer. -/
theorem step_lazy (h : Inv n s log) (hterm : s.terminated = false) (hrunning : s.running = false) (t : Thread) :
    (s.step n (.step t)).1 = s ∨ (s.step n (.step t)).1.left n < s.left n := by
  simp only [Life.step, hterm, Bool.false_eq_true, if_false]
  cases hstack : s.handlers t with
  | cons x rest => exact (h.stop_lazy hterm hrunning hstack).imp_left And.left
  | nil =>
    cases t with
    | main =>
      dsimp only [Life.advance]
      cases hd : s.destroying with
      | none => exact (h.goOn_lazy hterm).imp_left And.left
      | some d => exact (h.destroy_lazy hterm hstack hd).imp_left And.left
    | _ => exact h.setLoop_lazy hterm _

theorem loop_of_started (h : Inv n s log) {t : Thread} {k : ℕ} (hk : startTime n t = some k)
    (hlt : k < s.run.clock n) (hloop : s.loops t ≠ .finished) : s.loops t = .looping ∨ s.loops t = .leaving := by
  have hstarted : s.loops t ≠ .unstarted := (h.placed.started t).mpr ⟨k, hk, hlt⟩
  cases hl : s.loops t with
  | unstarted => exact absurd hl hstarted
  | finished => exact absurd hl hloop
  | looping => exact .inl rfl
  | leaving => exact .inr rfl

/-- The health checker can move when nobody wants it to go on. -/
theorem checker_helps (h : Inv n s log) (hterm : s.terminated = false) (hrunning : s.running = false)
    (hchecking : s.checking = false) (hclock : 2 < s.run.clock n) (hloop : s.loops .checker ≠ .finished) :
    (s.step n (.step .checker)).1.left n < s.left n := by
  simp only [Life.step, hterm, Bool.false_eq_true, if_false]
  cases hstack : s.handlers .checker with
  | cons x rest =>
    rcases h.stop_lazy hterm hrunning hstack with ⟨-, -, -, hne, -⟩ | hlt
    · exact absurd rfl hne
    · exact hlt
  | nil =>
    refine h.left_setLoop hterm ?_
    exact (h.loop_of_started rfl hclock hloop).imp_left fun hl => ⟨hl, hchecking⟩

/-- There is always a thread that can move. -/
theorem step_helps (h : Inv n s log) (hterm : s.terminated = false) (hrunning : s.running = false)
    (hrun : s.run ≠ .returned) (hexit : s.destroying ≠ some .exited) :
    ∃ t ∈ threads n, (s.step n (.step t)).1.left n < s.left n := by
  have hchecker : .checker ∈ threads n := by simp [threads]
  by_cases hhandlers : ∃ t, s.handlers t ≠ []
  · obtain ⟨t, ht⟩ := hhandlers
    obtain ⟨x, rest, hstack⟩ := List.exists_cons_of_ne_nil ht
    rcases h.stop_lazy hterm hrunning hstack with ⟨-, rfl, hjoinable, -, hloop⟩ | hlt
    · -- the handler waits for the health checker, and has told it to leave
      have hclock := h.joinable hjoinable
      exact ⟨.checker, hchecker,
        h.checker_helps hterm hrunning (h.waiting t (by simp [hstack])) (by omega) hloop⟩
    · refine ⟨t, h.mem_threads (h.alive t ht), ?_⟩
      simpa only [Life.step, hterm, Bool.false_eq_true, if_false, hstack] using hlt
  · push Not at hhandlers
    have hmain : (s.advance n .main).1.left n < s.left n →
        ∃ t ∈ threads n, (s.step n (.step t)).1.left n < s.left n := by
      intro hlt
      refine ⟨.main, by simp [threads], ?_⟩
      simpa only [Life.step, hterm, Bool.false_eq_true, if_false, hhandlers] using hlt
    simp only [Life.advance] at hmain
    cases hd : s.destroying with
    | some d =>
      simp only [hd] at hmain
      rcases h.destroy_lazy hterm (hhandlers .main) hd with ⟨-, rfl | ⟨rfl, hjoinable, hloop⟩⟩ | hlt
      · exact absurd hd hexit
      · have hclock := h.joinable hjoinable
        exact ⟨.checker, hchecker, h.checker_helps hterm hrunning (h.unchecked (.inr (by simp [Life.fall, hd])))
          (by omega) hloop⟩
      · exact hmain hlt
    | none =>
      simp only [hd] at hmain
      rcases h.goOn_lazy hterm with ⟨-, hreturned | ⟨t, hjoin, hloop⟩⟩ | hlt
      · exact absurd hreturned hrun
      · rcases joinTime_cases hjoin with ⟨i, hi, rfl, hclock⟩ | ⟨rfl, hclock⟩ | ⟨rfl, hclock⟩
        · refine ⟨.worker i, by simp [threads, hi], ?_⟩
          simp only [Life.step, hterm, Bool.false_eq_true, if_false, hhandlers]
          refine h.left_setLoop hterm ?_
          exact (h.loop_of_started (t := .worker i) (if_pos hi) (by omega) hloop).imp_left fun hl => ⟨hl, hrunning⟩
        · refine ⟨.metrics, by simp [threads], ?_⟩
          simp only [Life.step, hterm, Bool.false_eq_true, if_false, hhandlers]
          refine h.left_setLoop hterm ?_
          exact (h.loop_of_started rfl (by omega) hloop).imp_left fun hl => ⟨hl, hrunning⟩
        · exact ⟨.checker, hchecker,
            h.checker_helps hterm hrunning (h.unchecked (by omega)) (by omega) hloop⟩
      · exact hmain hlt

end Inv

/-! ## Exceptions -/

/-- The thread in which an exception has been thrown. -/
def Act.thrower : Act → Option Thread
  | .threw t => some t
  | .notStarted _ => some .main
  | _ => none

theorem thrower_stop (s : Life) (t : Thread) (rest : List StopAt) (x : StopAt) :
    ∀ a ∈ (s.stop t rest x).2, a.thrower = none := by
  cases x <;> grind [Life.stop, Act.thrower]

theorem thrower_advance (n : ℕ) (s : Life) (t : Thread) : ∀ a ∈ (s.advance n t).2, a.thrower = none := by
  cases t with
  | main =>
    rw [Life.advance]
    split
    · grind [Life.goOn, Act.thrower]
    · rename_i d _
      cases d <;> grind [Life.destroy]
  | _ => exact fun a ha => absurd ha List.not_mem_nil

theorem thrower_throw (n : ℕ) (s : Life) (t : Thread) : ∀ a ∈ (s.throw n t).2, a.thrower = some t := by
  cases t with
  | main =>
    rw [Life.throw]
    split
    · simp [Act.thrower]
    · simp
  | _ => simp [Life.throw, Act.thrower]

theorem throws_of_mem_step {n : ℕ} {s : Life} {e : Move} {a : Act} {t : Thread} (h : a ∈ (s.step n e).2)
    (ha : a.thrower = some t) : e = .throws t := by
  have hnone : a.thrower ≠ none := by simp [ha]
  cases hterm : s.terminated with
  | true => simp [Life.step, hterm] at h
  | false =>
    simp only [Life.step, hterm, Bool.false_eq_true, if_false] at h
    cases e with
    | step u =>
      cases hstack : s.handlers u with
      | cons x rest =>
        simp only [hstack] at h
        exact absurd (thrower_stop s u rest x a h) hnone
      | nil =>
        simp only [hstack] at h
        exact absurd (thrower_advance n s u a h) hnone
    | signal u =>
      dsimp only at h
      split at h <;> cases h
    | throws u =>
      dsimp only at h
      split at h
      · rw [Option.some.inj (ha.symm.trans (thrower_throw n s u a h))]
      · cases h

section Runs

variable {n : ℕ} (es : ℕ → Move)

theorem inv_moment (hn : 0 < n) (m : ℕ) :
    Inv n (Reactive.moment (Life.step n) {} es m).1 (Reactive.moment (Life.step n) {} es m).2 :=
  Reactive.run_invariant (inv_start n) (fun _ _ e h => h.step hn e) _

theorem throws_of_mem_moment {m : ℕ} {a : Act} {t : Thread} (h : a ∈ (Reactive.moment (Life.step n) {} es m).2)
    (ha : a.thrower = some t) : ∃ j, es j = .throws t := by
  induction m with
  | zero => cases h
  | succ m ih =>
    rw [Reactive.moment_succ] at h
    rcases List.mem_append.mp h with h | h
    · exact ih h
    · exact ⟨m, throws_of_mem_step h ha⟩

/-- **A stop comes to its end.** In every endless run in which all threads are scheduled again and again, signals and
exceptions come to an end at some time and no exception leaves a worker: once a stop has taken effect, `run` returns,
unless the stop is handled on the health checker's thread and ends the process, or an exception does: one that leaves
the health checker, or one in `run` because a thread cannot be started, and then the process ends too. -/
theorem shutdown_completes (hn : 0 < n) (hfair : ∀ t ∈ threads n, ∀ k, ∃ m, k ≤ m ∧ es m = .step t)
    (hquiet : ∃ k, ∀ m, k ≤ m → ∃ t, es m = .step t) (hthrow : ∀ m i, es m ≠ .throws (.worker i))
    (hstop : ∃ k t, .stopped t ∈ (Reactive.moment (Life.step n) {} es k).2) :
    ∃ m, let r := Reactive.moment (Life.step n) {} es m
      r.1.run = .returned ∨ r.1.terminated = true ∧ .stopped .checker ∈ r.2 ∨
        r.1.terminated = true ∧ (.threw .checker ∈ r.2 ∨ ∃ i, .notStarted (.worker i) ∈ r.2) ∨
        r.1.destroying = some .exited ∧ ∃ t, .notStarted t ∈ r.2 := by
  obtain ⟨k₁, hquiet⟩ := hquiet
  obtain ⟨k₂, t, hstop⟩ := hstop
  let x : ℕ → Life := fun m => (Reactive.moment (Life.step n) {} es m).1
  let after : Life → Move → Life := fun s e => (s.step n e).1
  have hx : ∀ m, x (m + 1) = after (x m) (es m) := fun m => by simp only [x, after, Reactive.moment_succ]
  have hinv : ∀ m, Inv n (x m) (Reactive.moment (Life.step n) {} es m).2 := inv_moment es hn
  have hrunning : ∀ m, max k₁ k₂ ≤ m → (x m).running = false := fun m hm =>
    (hinv m).running_of_stopped
      ((Reactive.moment_log_prefix (Life.step n) {} es ((le_max_right k₁ k₂).trans hm)).subset hstop)
  let Ended : Life → Prop := fun s => s.run = .returned ∨ s.terminated = true ∨ s.destroying = some .exited
  have hend : ∃ m, max k₁ k₂ ≤ m ∧ Ended (x m) := by
    refine Progress.eventually_of_fair (μ := Life.left n) (P := Ended) hx (max k₁ k₂) ?_ ?_
    · intro m hm
      obtain ⟨u, hu⟩ := hquiet m ((le_max_left k₁ k₂).trans hm)
      simp only [hx, hu, after]
      cases hterm : (x m).terminated with
      | true => exact .inl (by rw [Life.step, hterm, if_pos rfl])
      | false => exact (hinv m).step_lazy hterm (hrunning m hm) u
    · intro m hm hnot
      simp only [Ended, not_or] at hnot
      obtain ⟨hrun, hterm, hexit⟩ := hnot
      obtain ⟨u, hmem, hlt⟩ := (hinv m).step_helps (eq_false_of_ne_true hterm) (hrunning m hm) hrun hexit
      exact ⟨.step u, hfair u hmem, hlt⟩
  obtain ⟨m, -, hreturned | hterm | hexit⟩ := hend
  · exact ⟨m, .inl hreturned⟩
  · obtain ⟨a, ha, hfatal⟩ := (hinv m).terminated hterm
    refine ⟨m, .inr ?_⟩
    rcases Act.isFatal_iff.mp hfatal with ⟨i, rfl⟩ | rfl | ⟨i, rfl⟩ | rfl
    · obtain ⟨j, hj⟩ := throws_of_mem_moment es ha rfl
      exact absurd hj (hthrow j i)
    · exact .inr (.inl ⟨hterm, .inl ha⟩)
    · exact .inr (.inl ⟨hterm, .inr ⟨i, ha⟩⟩)
    · exact .inl ⟨hterm, ha⟩
  · obtain ⟨t, -, ht⟩ := (hinv m).notStarted (by simp [Life.fall, show (x m).destroying = some .exited from hexit])
    exact ⟨m, .inr (.inr (.inr ⟨hexit, t, ht⟩))⟩

end Runs

/-- One worker, a signal for the main thread while it joins the worker, and then the threads in turn. -/
def stoppedAtJoin (m : ℕ) : Move :=
  if m < 7 then .step .main
  else if m = 7 then .signal .main
  else if m % 4 = 0 then .step .main
  else if m % 4 = 1 then .step (.worker 0)
  else if m % 4 = 2 then .step .metrics
  else .step .checker

theorem shutdown_completes_stoppedAtJoin :
    ∃ m, let r := Reactive.moment (Life.step 1) {} stoppedAtJoin m
      r.1.run = .returned ∨ r.1.terminated = true ∧ .stopped .checker ∈ r.2 := by
  have hquiet : ∀ m t, stoppedAtJoin m ≠ .throws t := by grind [stoppedAtJoin]
  have hends := shutdown_completes stoppedAtJoin Nat.one_pos (fun t ht k => ?_) ⟨8, fun m hm => ?_⟩
    (fun m i => hquiet m _) ⟨9, .main, by decide⟩
  · have hnone : ∀ {m a t}, a ∈ (Reactive.moment (Life.step 1) {} stoppedAtJoin m).2 → a.thrower ≠ some t :=
      fun ha hthrower => (throws_of_mem_moment stoppedAtJoin ha hthrower).elim fun j => hquiet j _
    obtain ⟨m, hreturned | hself | ⟨-, hthrew | ⟨i, hthrew⟩⟩ | ⟨-, t, hthrew⟩⟩ := hends
    · exact ⟨m, .inl hreturned⟩
    · exact ⟨m, .inr hself⟩
    · exact absurd rfl (hnone hthrew)
    · exact absurd rfl (hnone hthrew)
    · exact absurd rfl (hnone hthrew)
  · have hcases : t = .main ∨ t = .metrics ∨ t = .checker ∨ t = .worker 0 := by
      simpa [threads, or_assoc, eq_comm] using ht
    rcases hcases with rfl | rfl | rfl | rfl
    · exact ⟨4 * k + 8, by omega, by grind [stoppedAtJoin]⟩
    · exact ⟨4 * k + 10, by omega, by grind [stoppedAtJoin]⟩
    · exact ⟨4 * k + 11, by omega, by grind [stoppedAtJoin]⟩
    · exact ⟨4 * k + 9, by omega, by grind [stoppedAtJoin]⟩
  · rw [stoppedAtJoin, if_neg (by omega), if_neg (by omega)]
    split_ifs <;> exact ⟨_, rfl⟩

end ApiGateway.Core.Lifecycle
