import ApiGateway.Common.Interleaving
import ApiGateway.Routing.LoadBalancer

/-!
# Concurrent picks

Workers share the round-robin counter. A pick is a sequence of draws, each an atomic `fetch_add`, and
the draws of other picks come in between. Alone, a pick is `pickRoundRobin` (`run_alone`). Among others
it may see the same index again and again: unless all backends are healthy, there is an interleaving in
which a pick gives up although a healthy backend exists (`concurrent_pick_iff`).
-/

namespace ApiGateway.Routing

open Resilience Interleaving LoadBalancer

/-- A call of `pickRoundRobin`: in its loop before round `i`, or returned. -/
inductive Pick where
  | drawing (i : ℕ)
  | done (result : Option ℕ)
deriving DecidableEq, Repr

/-- One round of the loop, up to the next `fetch_add`. -/
def drawStep (lb : LoadBalancer) (counter : UInt64) : Pick → UInt64 × Pick
  | .drawing i =>
    let idx := counter.toNat % lb.size
    (counter + 1,
      if lb.isHealthy idx then .done (some idx)
      else if i + 1 < lb.size then .drawing (i + 1)
      else .done none)
  | .done result => (counter, .done result)

/-- Any number of picks, none of which has drawn yet. -/
def atStart (counter : UInt64) : Config UInt64 Pick := ⟨counter, fun _ => .drawing 0⟩

variable {lb : LoadBalancer}

/-! ## One pick alone -/

/-- A pick that has returned draws no more. -/
theorem run_replicate_done (t k : ℕ) {c : Config UInt64 Pick} {r : Option ℕ}
    (h : c.threads t = .done r) : run (drawStep lb) (List.replicate k t) c = c := by
  induction k with
  | zero => rfl
  | succ k ih =>
    have hstep : stepThread (drawStep lb) c t = c := by
      simp only [stepThread, h, drawStep]
      rw [← h, Function.update_eq_self]
    rw [List.replicate_succ, run_cons, hstep, ih]

/-- The rest of a pick without interference is the rest of the loop. -/
theorem run_alone_loop (t rounds : ℕ) (lb : LoadBalancer) {i : ℕ} {c : Config UInt64 Pick}
    (hsize : i + (rounds + 1) = lb.size) (hcounter : c.shared = lb.rrCounter)
    (hthread : c.threads t = .drawing i) :
    (run (drawStep lb) (List.replicate (rounds + 1) t) c).threads t
        = .done (pickRoundRobinLoop (rounds + 1) lb).1 ∧
      (run (drawStep lb) (List.replicate (rounds + 1) t) c).shared
        = (pickRoundRobinLoop (rounds + 1) lb).2.rrCounter := by
  induction rounds generalizing i c lb with
  | zero =>
    have hlast : ¬ i + 1 < lb.size := by omega
    rw [List.replicate_one, run_cons, run_nil, stepThread_self, hthread, hcounter, pickRoundRobinLoop]
    by_cases hhealthy : lb.isHealthy (lb.rrCounter.toNat % lb.size) = true
    · simp [drawStep, stepThread, hthread, hcounter, nextIndex, hhealthy, isHealthy_with]
    · simp [drawStep, stepThread, hthread, hcounter, nextIndex, hhealthy, isHealthy_with, hlast,
        pickRoundRobinLoop]
  | succ rounds ih =>
    rw [List.replicate_succ, run_cons, pickRoundRobinLoop]
    have hshared : (stepThread (drawStep lb) c t).shared = lb.rrCounter + 1 := by
      simp [stepThread, hthread, drawStep, hcounter]
    by_cases hhealthy : lb.isHealthy (lb.rrCounter.toNat % lb.size) = true
    · have hdone : (stepThread (drawStep lb) c t).threads t = .done (some lb.nextIndex) := by
        simp [hthread, hcounter, drawStep, hhealthy, nextIndex]
      rw [run_replicate_done t _ hdone, hdone, hshared]
      simp [nextIndex, hhealthy, isHealthy_with]
    · have hnext : (stepThread (drawStep lb) c t).threads t = .drawing (i + 1) := by
        have hmore : i + 1 < lb.size := by omega
        simp [hthread, hcounter, drawStep, hhealthy, hmore]
      have hrec := ih { lb with rrCounter := lb.rrCounter + 1 } (i := i + 1)
        (by simp only [size] at hsize ⊢; omega) hshared hnext
      rw [if_neg (by simpa [nextIndex, isHealthy_with] using hhealthy)]
      exact hrec

/-- **Alone, a pick is `pickRoundRobin`.** -/
theorem run_alone (lb : LoadBalancer) (t : ℕ) (hne : lb.backends ≠ []) :
    (run (drawStep lb) (List.replicate lb.size t) (atStart lb.rrCounter)).threads t
      = .done lb.pickRoundRobin.1 := by
  obtain ⟨rounds, hrounds⟩ : ∃ rounds, lb.size = rounds + 1 :=
    Nat.exists_eq_succ_of_ne_zero (by simpa [size] using hne)
  rw [pickRoundRobin, hrounds]
  exact (run_alone_loop t rounds lb (by omega) rfl rfl).1

/-! ## All backends healthy -/

/-- A pick has not drawn yet, or has found a backend. -/
def Fruitful (c : Config UInt64 Pick) : Prop :=
  ∀ t, c.threads t = .drawing 0 ∨ ∃ idx, c.threads t = .done (some idx)

theorem Fruitful.step (hne : 0 < lb.size) (hall : ∀ b ∈ lb.backends, b.healthy = true)
    (c : Config UInt64 Pick) (t : ℕ) (h : Fruitful c) : Fruitful (stepThread (drawStep lb) c t) := by
  have hhealthy : ∀ n, lb.isHealthy (n % lb.size) = true := by
    intro n
    have hlt : n % lb.size < lb.backends.length := Nat.mod_lt _ hne
    exact (lb.isHealthy_iff _).mpr ⟨_, List.getElem?_eq_getElem hlt, hall _ (List.getElem_mem hlt)⟩
  intro u
  by_cases hu : u = t
  · subst hu
    rw [stepThread_self]
    rcases h u with hdraw | ⟨idx, hdone⟩
    · rw [hdraw, drawStep]
      exact .inr ⟨_, if_pos (hhealthy _)⟩
    · rw [hdone]
      exact .inr ⟨idx, rfl⟩
  · rw [stepThread_of_ne c hu]
    exact h u

/-! ## A pick that always sees the same index -/

/-- Each of `m` picks that have not drawn yet draws once: the counter moves by `m`. -/
theorem run_fresh (lb : LoadBalancer) (K m : ℕ) {c : Config UInt64 Pick}
    (hfresh : ∀ t, K ≤ t → c.threads t = .drawing 0) :
    (run (drawStep lb) (List.range' K m) c).shared = c.shared + UInt64.ofNat m ∧
      (∀ t < K, (run (drawStep lb) (List.range' K m) c).threads t = c.threads t) ∧
      ∀ t, K + m ≤ t → (run (drawStep lb) (List.range' K m) c).threads t = .drawing 0 := by
  have hothers : ∀ t, t < K ∨ K + m ≤ t →
      (run (drawStep lb) (List.range' K m) c).threads t = c.threads t := by
    intro t ht
    apply run_threads_of_not_mem
    rw [List.mem_range'_1]
    omega
  refine ⟨?_, fun t ht => hothers t (.inl ht), fun t ht => ?_⟩
  · clear hothers
    induction m generalizing K c with
    | zero => simp
    | succ m ih =>
      have hshared : (stepThread (drawStep lb) c K).shared = c.shared + 1 := by
        simp [stepThread, hfresh K le_rfl, drawStep]
      have hrest : ∀ t, K + 1 ≤ t → (stepThread (drawStep lb) c K).threads t = .drawing 0 := by
        intro t ht
        rw [stepThread_of_ne c (by omega)]
        exact hfresh t (by omega)
      rw [List.range'_succ, run_cons, ih (K + 1) hrest, hshared, UInt64.add_assoc,
        Nat.add_comm m, UInt64.ofNat_add]
      rfl
  · rw [hothers t (.inr ht)]
    exact hfresh t (by omega)

/-- Pick `0` is before round `i`, the counter stands at `counter`, and the picks from `K` on have not
drawn yet. -/
def Stalled (counter : UInt64) (i K : ℕ) (c : Config UInt64 Pick) : Prop :=
  c.shared = counter ∧ c.threads 0 = .drawing i ∧ 0 < K ∧ ∀ t, K ≤ t → c.threads t = .drawing 0

/-- A full turn of the counter by other picks: pick `0` draws an unhealthy backend, and the counter comes
back to where it was. -/
theorem Stalled.turn {counter : UInt64} {i K : ℕ} {c : Config UInt64 Pick}
    (h : Stalled counter i K c) (hbad : lb.isHealthy (counter.toNat % lb.size) = false)
    (hmore : i + 1 < lb.size) :
    Stalled counter (i + 1) (K + (2 ^ 64 - 1))
      (run (drawStep lb) (0 :: List.range' K (2 ^ 64 - 1)) c) := by
  obtain ⟨hshared, hzero, hK, hfresh⟩ := h
  rw [run_cons]
  have hshared' : (stepThread (drawStep lb) c 0).shared = counter + 1 := by
    simp [stepThread, hzero, drawStep, hshared]
  have hzero' : (stepThread (drawStep lb) c 0).threads 0 = .drawing (i + 1) := by
    simp [hzero, hshared, drawStep, hbad, hmore]
  have hfresh' : ∀ t, K ≤ t → (stepThread (drawStep lb) c 0).threads t = .drawing 0 := by
    intro t ht
    rw [stepThread_of_ne c (by omega)]
    exact hfresh t ht
  obtain ⟨hcounter, hbelow, habove⟩ := run_fresh lb K (2 ^ 64 - 1) hfresh'
  refine ⟨?_, ?_, by omega, habove⟩
  · rw [hcounter, hshared', UInt64.add_assoc]
    have hturn : (1 : UInt64) + UInt64.ofNat (2 ^ 64 - 1) = 0 := by decide
    rw [hturn, UInt64.add_zero]
  · rw [hbelow 0 hK, hzero']

/-- Turn after turn, pick `0` gets to its last round. -/
theorem Stalled.last {counter : UInt64} {K : ℕ} {c : Config UInt64 Pick} (h : Stalled counter 0 K c)
    (hbad : lb.isHealthy (counter.toNat % lb.size) = false) (i : ℕ) (hi : i < lb.size) :
    ∃ schedule K', Stalled counter i K' (run (drawStep lb) schedule c) := by
  induction i with
  | zero => exact ⟨[], K, h⟩
  | succ i ih =>
    obtain ⟨schedule, K', hstalled⟩ := ih (by omega)
    refine ⟨schedule ++ (0 :: List.range' K' (2 ^ 64 - 1)), K' + (2 ^ 64 - 1), ?_⟩
    rw [run_append]
    exact hstalled.turn hbad hi

/-- The counter can be brought to any value before pick `0` draws. -/
theorem exists_stalled (lb : LoadBalancer) (start counter : UInt64) :
    ∃ schedule K, Stalled counter 0 K (run (drawStep lb) schedule (atStart start)) := by
  obtain ⟨hcounter, hbelow, habove⟩ := run_fresh lb 1 (counter - start).toNat
    (c := atStart start) fun _ _ => rfl
  refine ⟨_, _, ?_, hbelow 0 (by omega), by omega, habove⟩
  rw [hcounter, UInt64.ofNat_toNat, atStart, UInt64.add_comm, UInt64.sub_add_cancel]

/-- **When no interleaving makes a pick give up.** Let some backend be healthy. From any counter value,
all picks of all interleavings find a backend if and only if every backend is healthy. -/
theorem concurrent_pick_iff (lb : LoadBalancer) (hsome : ∃ b ∈ lb.backends, b.healthy = true)
    (start : UInt64) :
    (∀ schedule t, (run (drawStep lb) schedule (atStart start)).threads t ≠ .done none) ↔
      ∀ b ∈ lb.backends, b.healthy = true := by
  have hpos : 0 < lb.size := by
    obtain ⟨b, hb, -⟩ := hsome
    exact List.length_pos_of_mem hb
  constructor
  · intro hfind
    by_contra hnot
    push Not at hnot
    obtain ⟨b, hb, hbad⟩ := hnot
    obtain ⟨idx, hidx⟩ := List.mem_iff_getElem?.mp hb
    have hlt : idx < lb.size := (List.getElem?_eq_some_iff.mp hidx).1
    -- an index is a possible value of the counter
    have hindex : (UInt64.ofNat idx).toNat % lb.size = idx := by
      rw [UInt64.toNat_ofNat', Nat.mod_eq_of_lt (hlt.trans lb.size_lt), Nat.mod_eq_of_lt hlt]
    have hunhealthy : lb.isHealthy ((UInt64.ofNat idx).toNat % lb.size) = false := by
      rw [hindex, isHealthy, hidx]
      simpa using hbad
    obtain ⟨s₁, K, hstalled⟩ := exists_stalled lb start (UInt64.ofNat idx)
    obtain ⟨s₂, K', hshared, hzero, -, -⟩ := hstalled.last hunhealthy (lb.size - 1) (by omega)
    have hlast : ¬ lb.size - 1 + 1 < lb.size := by omega
    refine hfind (s₁ ++ s₂ ++ [0]) 0 ?_
    rw [run_append, run_append, run_cons, run_nil, stepThread_self, hzero, hshared, drawStep]
    simp only [hunhealthy, hlast, Bool.false_eq_true, if_false]
  · intro hall schedule t hnull
    have hfruitful : Fruitful (run (drawStep lb) schedule (atStart start)) :=
      run_invariant (Fruitful.step hpos hall) schedule fun _ => .inl rfl
    rcases hfruitful t with hdraw | ⟨idx, hdone⟩
    · simp [hdraw] at hnull
    · simp [hdone] at hnull

/-- One healthy and one unhealthy backend. -/
def halfHealthy : LoadBalancer where
  backends :=
    [{ host := [], port := 1, circuitBreaker := { failureThreshold := 5, resetTimeout := 1 } },
     { host := [], port := 2, healthy := false,
       circuitBreaker := { failureThreshold := 5, resetTimeout := 1 } }]

theorem concurrent_pick_halfHealthy :
    (∃ b ∈ halfHealthy.backends, b.healthy = true) ∧
      ¬ ∀ schedule t,
        (run (drawStep halfHealthy) schedule (atStart 1)).threads t ≠ .done none := by
  have hsome : ∃ b ∈ halfHealthy.backends, b.healthy = true := by decide
  refine ⟨hsome, fun hfind => ?_⟩
  have hall := (concurrent_pick_iff halfHealthy hsome 1).mp hfind
  revert hall
  decide

/-- A pick draws the unhealthy backend, another pick draws the healthy one, and the first pick draws the
unhealthy one again: it gives up. -/
theorem spurious_all_unhealthy :
    ¬ ∀ (lb : LoadBalancer), (∃ b ∈ lb.backends, b.healthy = true) → ∀ start schedule t,
      (run (drawStep lb) schedule (atStart start)).threads t ≠ .done none := by
  intro hfind
  exact hfind halfHealthy (by decide) 1 [0, 1, 0] 0 (by decide)

end ApiGateway.Routing
