import Mathlib.Data.List.Range
import Mathlib.Data.Set.Card
import Mathlib.Logic.Function.Basic
import Mathlib.Tactic.Common

/-!
# Interleavings

Any number of threads that run the same program over one shared state. A configuration holds the shared
state and a local state for each thread; a schedule lists which thread takes the next atomic step.
Properties of every interleaving are properties of every schedule. How many threads are at a place changes
by one at most, if one thread moves (`ncard_holders_update`). Where what the threads do is logged together, `own`
is the part of one of them.
-/

namespace Interleaving

/-- The shared state, and the local state of each thread. -/
structure Config (γ σ : Type*) where
  shared : γ
  threads : ℕ → σ

variable {γ σ : Type*} (step : γ → σ → γ × σ)

/-- Thread `t` takes an atomic step. -/
def stepThread (c : Config γ σ) (t : ℕ) : Config γ σ :=
  ⟨(step c.shared (c.threads t)).1, Function.update c.threads t (step c.shared (c.threads t)).2⟩

/-- The threads take their steps in the order of the schedule. -/
def run (schedule : List ℕ) (c : Config γ σ) : Config γ σ := schedule.foldl (stepThread step) c

@[simp] theorem run_nil (c : Config γ σ) : run step [] c = c := rfl

@[simp] theorem run_cons (t : ℕ) (schedule : List ℕ) (c : Config γ σ) :
    run step (t :: schedule) c = run step schedule (stepThread step c t) := rfl

theorem run_append (s₁ s₂ : List ℕ) (c : Config γ σ) :
    run step (s₁ ++ s₂) c = run step s₂ (run step s₁ c) := List.foldl_append

variable {step}

@[simp] theorem stepThread_self (c : Config γ σ) (t : ℕ) :
    (stepThread step c t).threads t = (step c.shared (c.threads t)).2 := by
  simp [stepThread]

theorem stepThread_of_ne (c : Config γ σ) {t u : ℕ} (h : u ≠ t) :
    (stepThread step c t).threads u = c.threads u := by
  simp [stepThread, h]

/-- **Invariants of every interleaving.** What holds at first and is kept by each step of each thread
holds after every schedule. -/
theorem run_invariant {I : Config γ σ → Prop} (hstep : ∀ c t, I c → I (stepThread step c t))
    (schedule : List ℕ) {c : Config γ σ} (h : I c) : I (run step schedule c) := by
  induction schedule generalizing c with
  | nil => exact h
  | cons t schedule ih => exact ih (hstep c t h)

/-- **Two runs of one schedule.** A relation that holds at first, and is kept if a scheduled thread takes
its step in both runs, holds in the end. -/
theorem run_related {R : Config γ σ → Config γ σ → Prop} {schedule : List ℕ}
    (hstep : ∀ c c', ∀ t ∈ schedule, R c c' → R (stepThread step c t) (stepThread step c' t))
    {c c' : Config γ σ} (h : R c c') : R (run step schedule c) (run step schedule c') := by
  induction schedule generalizing c c' with
  | nil => exact h
  | cons t schedule ih =>
    refine ih (fun c c' u hu => hstep c c' u (List.mem_cons_of_mem t hu)) ?_
    exact hstep c c' t List.mem_cons_self h

/-- Only scheduled threads move. -/
theorem run_threads_of_not_mem {schedule : List ℕ} {t : ℕ} (h : t ∉ schedule) (c : Config γ σ) :
    (run step schedule c).threads t = c.threads t := by
  induction schedule generalizing c with
  | nil => rfl
  | cons u schedule ih =>
    rw [List.mem_cons, not_or] at h
    rw [run_cons, ih h.2, stepThread_of_ne c h.1]

/-! ## Counting threads -/

section Holders

variable {ι β : Type*} [DecidableEq ι] [DecidableEq β]

/-- The threads that have a value. -/
def holders (f : ι → Option β) (b : β) : Set ι := {i | f i = some b}

/-- **One thread moves.** It counts where it goes to, and no longer where it comes from. -/
theorem ncard_holders_update {f : ι → Option β} {b : β} (hfinite : (holders f b).Finite) (i : ι)
    (x : Option β) :
    (holders (Function.update f i x) b).Finite ∧
      ((holders (Function.update f i x) b).ncard : ℤ)
        = (holders f b).ncard + (if x = some b then 1 else 0) - if f i = some b then 1 else 0 := by
  have hmem : ∀ j, j ∈ holders (Function.update f i x) b ↔
      if j = i then x = some b else j ∈ holders f b := by
    intro j
    by_cases hj : j = i
    · simp [holders, hj]
    · simp [holders, hj]
  -- the thread is a holder afterwards or not, and was one before or not
  by_cases hnew : x = some b
  · have hinsert : holders (Function.update f i x) b = insert i (holders f b) := by
      ext j
      rw [hmem, Set.mem_insert_iff]
      split <;> simp_all
    rw [hinsert]
    refine ⟨hfinite.insert i, ?_⟩
    by_cases hold : f i = some b
    · have hin : i ∈ holders f b := hold
      simp [Set.insert_eq_of_mem hin, hnew, hold]
    · have hout : i ∉ holders f b := hold
      simp [Set.ncard_insert_of_notMem hout hfinite, hnew, hold]
  · have hdiff : holders (Function.update f i x) b = holders f b \ {i} := by
      ext j
      rw [hmem, Set.mem_sdiff, Set.mem_singleton_iff]
      split <;> simp_all
    rw [hdiff]
    refine ⟨hfinite.sdiff, ?_⟩
    by_cases hold : f i = some b
    · have hin : i ∈ holders f b := hold
      have hcard := Set.ncard_sdiff_singleton_add_one hin hfinite
      simp only [hnew, hold, if_true, if_false]
      omega
    · have hout : i ∉ holders f b := hold
      simp [Set.sdiff_singleton_eq_self hout, hnew, hold]

end Holders

/-! ## Logs of several threads -/

section Own

variable {ι α : Type*} [DecidableEq ι]

/-- What one thread has done. -/
def own (i : ι) (log : List (ι × α)) : List α :=
  log.filterMap fun x => if x.1 = i then some x.2 else none

theorem own_cons (i : ι) (x : ι × α) (log : List (ι × α)) :
    own i (x :: log) = if x.1 = i then x.2 :: own i log else own i log := by
  rw [own, List.filterMap_cons]
  split <;> simp_all [own]

theorem own_append (i : ι) (log log' : List (ι × α)) : own i (log ++ log') = own i log ++ own i log' :=
  List.filterMap_append

theorem own_map_self (i : ι) (l : List α) : own i (l.map (i, ·)) = l := by
  simp [own, List.filterMap_map]

theorem own_map_of_ne {i j : ι} (h : j ≠ i) (l : List α) : own i (l.map (j, ·)) = [] := by
  simp [own, h]

end Own

end Interleaving
