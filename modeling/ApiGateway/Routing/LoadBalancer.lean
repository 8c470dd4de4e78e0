import ApiGateway.Common.Bytes
import ApiGateway.Resilience.CircuitBreaker
import Mathlib.Data.List.Enum

/-!
# The load balancer

A fixed group of backends and the two strategies of choosing one. A `shared_ptr` into the group is an
index here. `pickRoundRobin` draws indices from a counter that wraps around; which residues it sees, and
that it sees all of them while the counter does not wrap, is said by `draw` and `exists_draw_eq`.

Reference: `include/routing/LoadBalancer.hpp`.
-/

namespace ApiGateway.Routing

open Str Resilience

structure Backend where
  host : Bytes
  port : ℤ
  healthy : Bool := true
  activeConnections : ℤ := 0
  circuitBreaker : CircuitBreaker
deriving DecidableEq, Repr

inductive LbStrategy where
  | RoundRobin
  | LeastConnections
deriving DecidableEq, Repr

/-- A vector's size is a `size_t`. -/
structure LoadBalancer where
  backends : List Backend
  strategy : LbStrategy := .RoundRobin
  rrCounter : UInt64 := 0
  size_lt : backends.length < 2 ^ 64 := by decide

namespace LoadBalancer

/-- The number of backends. -/
def size (lb : LoadBalancer) : ℕ := lb.backends.length

/-- The health flag of the backend with an index. -/
def isHealthy (lb : LoadBalancer) (idx : ℕ) : Bool := lb.backends[idx]?.any (·.healthy)

/-- The index that the next `fetch_add` gives. -/
def nextIndex (lb : LoadBalancer) : ℕ := lb.rrCounter.toNat % lb.size

/-- The `for` loop of `pickRoundRobin`, with the number of rounds left. -/
def pickRoundRobinLoop : ℕ → LoadBalancer → Option ℕ × LoadBalancer
  | 0, lb => (none, lb)
  | k + 1, lb =>
    let idx := lb.nextIndex
    let lb := { lb with rrCounter := lb.rrCounter + 1 }
    if lb.isHealthy idx then (some idx, lb) else pickRoundRobinLoop k lb

def pickRoundRobin (lb : LoadBalancer) : Option ℕ × LoadBalancer := pickRoundRobinLoop lb.size lb

/-- One round of the loop in `pickLeastConnections`: `best` and `bestConns` so far, and a backend. -/
def better (best : Option (ℕ × ℤ)) (b : Backend × ℕ) : Option (ℕ × ℤ) :=
  if ¬ b.1.healthy then best
  else
    match best with
    | none => some (b.2, b.1.activeConnections)
    | some (i, bestConns) =>
      if b.1.activeConnections < bestConns then some (b.2, b.1.activeConnections)
      else some (i, bestConns)

def pickLeastConnections (lb : LoadBalancer) : Option ℕ :=
  (lb.backends.zipIdx.foldl better none).map (·.1)

def pick (lb : LoadBalancer) : Option ℕ × LoadBalancer :=
  if lb.backends = [] then (none, lb)
  else
    match lb.strategy with
    | .RoundRobin => lb.pickRoundRobin
    | .LeastConnections => (lb.pickLeastConnections, lb)

/-- The backend that `pick` returns, with its index. -/
def pickBackend (lb : LoadBalancer) : Option (ℕ × Backend) × LoadBalancer :=
  (lb.pick.1.bind fun i => lb.backends[i]?.map (i, ·), lb.pick.2)

/-- Change one backend. -/
def update (lb : LoadBalancer) (i : ℕ) (f : Backend → Backend) : LoadBalancer :=
  { lb with backends := lb.backends.modify i f, size_lt := by simpa using lb.size_lt }

theorem pick_of_roundRobin {lb : LoadBalancer} (h : lb.strategy = .RoundRobin) :
    lb.pick = lb.pickRoundRobin := by
  unfold pick
  split
  · rename_i hnil
    rw [pickRoundRobin, size, hnil]
    rfl
  · rw [h]

theorem pick_of_leastConnections {lb : LoadBalancer} (h : lb.strategy = .LeastConnections) :
    lb.pick = (lb.pickLeastConnections, lb) := by
  unfold pick
  split
  · rename_i hnil
    rw [pickLeastConnections, hnil]
    rfl
  · rw [h]

/-! ## Health -/

theorem isHealthy_iff (lb : LoadBalancer) (idx : ℕ) :
    lb.isHealthy idx = true ↔ ∃ b, lb.backends[idx]? = some b ∧ b.healthy = true := by
  unfold isHealthy
  cases lb.backends[idx]? with
  | none => simp
  | some b => simp

theorem isHealthy_with (lb : LoadBalancer) (c : UInt64) (idx : ℕ) :
    isHealthy { lb with rrCounter := c } idx = lb.isHealthy idx := rfl

/-! ## Round robin -/

/-- The load balancer after `k` more draws. -/
def advance (lb : LoadBalancer) (k : ℕ) : LoadBalancer :=
  { lb with rrCounter := lb.rrCounter + UInt64.ofNat k }

/-- The index that draw number `k` from now gives. -/
def draw (lb : LoadBalancer) (k : ℕ) : ℕ := (lb.advance k).nextIndex

theorem advance_advance (lb : LoadBalancer) (j k : ℕ) :
    (lb.advance j).advance k = lb.advance (j + k) := by
  simp only [advance, UInt64.ofNat_add, UInt64.add_assoc]

@[simp] theorem advance_zero (lb : LoadBalancer) : lb.advance 0 = lb := by
  simp [advance]

theorem draw_advance (lb : LoadBalancer) (j k : ℕ) : (lb.advance j).draw k = lb.draw (j + k) := by
  rw [draw, advance_advance, draw]

@[simp] theorem isHealthy_advance (lb : LoadBalancer) (k idx : ℕ) :
    (lb.advance k).isHealthy idx = lb.isHealthy idx := rfl

theorem pickRoundRobinLoop_succ (rounds : ℕ) (lb : LoadBalancer) :
    pickRoundRobinLoop (rounds + 1) lb =
      if lb.isHealthy lb.nextIndex then (some lb.nextIndex, lb.advance 1)
      else pickRoundRobinLoop rounds (lb.advance 1) := rfl

/-- **`pickRoundRobin` by its draws**: the loop stops at the first healthy draw, or after all of its
rounds. -/
theorem pickRoundRobinLoop_spec (rounds : ℕ) (lb : LoadBalancer) :
    (∃ k < rounds, lb.isHealthy (lb.draw k) = true ∧
      (∀ j < k, lb.isHealthy (lb.draw j) = false) ∧
      pickRoundRobinLoop rounds lb = (some (lb.draw k), lb.advance (k + 1))) ∨
    ((∀ j < rounds, lb.isHealthy (lb.draw j) = false) ∧
      pickRoundRobinLoop rounds lb = (none, lb.advance rounds)) := by
  induction rounds generalizing lb with
  | zero =>
    refine .inr ⟨by simp, ?_⟩
    rw [pickRoundRobinLoop, advance_zero]
  | succ rounds ih =>
    have hfirst : lb.nextIndex = lb.draw 0 := by rw [draw, advance_zero]
    have hdraw : ∀ k, (lb.advance 1).draw k = lb.draw (k + 1) := fun k => by
      rw [draw_advance, Nat.add_comm]
    have hloop := pickRoundRobinLoop_succ rounds lb
    rw [hfirst] at hloop
    by_cases hhealthy : lb.isHealthy (lb.draw 0) = true
    · exact .inl ⟨0, by omega, hhealthy, by simp, by rw [hloop, if_pos hhealthy]⟩
    · rw [hloop, if_neg hhealthy]
      have hzero : lb.isHealthy (lb.draw 0) = false := by simpa using hhealthy
      -- the remaining rounds see the draws from number one on
      rcases ih (lb.advance 1) with ⟨k, hk, hok, hbefore, heq⟩ | ⟨hnone, heq⟩
      · refine .inl ⟨k + 1, by omega, ?_, ?_, ?_⟩
        · rw [← hdraw]
          exact hok
        · intro j hj
          cases j with
          | zero => exact hzero
          | succ j =>
            rw [← hdraw]
            exact hbefore j (by omega)
        · rw [heq, hdraw, advance_advance, Nat.add_comm 1]
      · refine .inr ⟨?_, by rw [heq, advance_advance, Nat.add_comm 1]⟩
        intro j hj
        cases j with
        | zero => exact hzero
        | succ j =>
          rw [← hdraw]
          exact hnone j (by omega)

/-- A pick changes nothing but the counter. -/
theorem exists_pick_snd_eq_advance (lb : LoadBalancer) : ∃ k, lb.pick.2 = lb.advance k := by
  cases h : lb.strategy with
  | RoundRobin =>
    rw [pick_of_roundRobin h]
    rcases lb.pickRoundRobinLoop_spec lb.size with ⟨k, -, -, -, heq⟩ | ⟨-, heq⟩
    · exact ⟨k + 1, by rw [pickRoundRobin, heq]⟩
    · exact ⟨lb.size, by rw [pickRoundRobin, heq]⟩
  | LeastConnections =>
    rw [pick_of_leastConnections h]
    exact ⟨0, lb.advance_zero.symm⟩

theorem pickBackend_fst_eq_some_iff (lb : LoadBalancer) (i : ℕ) (b : Backend) :
    lb.pickBackend.1 = some (i, b) ↔ lb.pick.1 = some i ∧ lb.backends[i]? = some b := by
  simp only [pickBackend, Option.bind_eq_some_iff, Option.map_eq_some_iff, Prod.mk.injEq]
  constructor
  · rintro ⟨j, hj, c, hc, rfl, rfl⟩
    exact ⟨hj, hc⟩
  · exact fun ⟨hi, hb⟩ => ⟨i, hi, b, hb, rfl, rfl⟩

theorem draw_eq (lb : LoadBalancer) (k : ℕ) :
    lb.draw k = (lb.rrCounter.toNat + k) % 2 ^ 64 % lb.size := by
  rw [draw, nextIndex, advance, UInt64.toNat_add, UInt64.toNat_ofNat']
  simp only [Nat.add_mod_mod]
  rfl

/-- The next `size` draws do not notice that the counter wraps around. -/
def Seamless (lb : LoadBalancer) : Prop :=
  lb.rrCounter.toNat + lb.size ≤ 2 ^ 64 ∨ lb.size ∣ 2 ^ 64

theorem Seamless.draw_eq {lb : LoadBalancer} (h : lb.Seamless) {k : ℕ} (hk : k < lb.size) :
    lb.draw k = (lb.rrCounter.toNat + k) % lb.size := by
  rw [LoadBalancer.draw_eq]
  rcases h with hle | hdvd
  · rw [Nat.mod_eq_of_lt (by omega : lb.rrCounter.toNat + k < 2 ^ 64)]
  · exact Nat.mod_mod_of_dvd _ hdvd

/-- Without a seam, `size` draws in a row give every index. -/
theorem Seamless.exists_draw_eq {lb : LoadBalancer} (h : lb.Seamless) {idx : ℕ}
    (hidx : idx < lb.size) : ∃ k < lb.size, lb.draw k = idx := by
  have hmod : lb.rrCounter.toNat % lb.size < lb.size := Nat.mod_lt _ (by omega)
  by_cases hle : lb.rrCounter.toNat % lb.size ≤ idx
  · have hk : idx - lb.rrCounter.toNat % lb.size < lb.size := by omega
    refine ⟨_, hk, ?_⟩
    rw [h.draw_eq hk, ← Nat.mod_add_mod, Nat.add_sub_cancel' hle, Nat.mod_eq_of_lt hidx]
  · have hk : idx + lb.size - lb.rrCounter.toNat % lb.size < lb.size := by omega
    refine ⟨_, hk, ?_⟩
    rw [h.draw_eq hk, ← Nat.mod_add_mod, Nat.add_sub_cancel' (by omega), Nat.add_mod_right,
      Nat.mod_eq_of_lt hidx]

/-! ## Least connections -/

/-- `i` is the first of the healthy backends with the fewest connections. -/
def LeastLoaded (bs : List Backend) (i : ℕ) : Prop :=
  ∃ b, bs[i]? = some b ∧ b.healthy = true ∧
    ∀ j b', bs[j]? = some b' → b'.healthy = true →
      b.activeConnections ≤ b'.activeConnections ∧
        (j < i → b.activeConnections < b'.activeConnections)

theorem LeastLoaded.unique {bs : List Backend} {i j : ℕ} (hi : LeastLoaded bs i)
    (hj : LeastLoaded bs j) : i = j := by
  obtain ⟨b, hb, hbh, hbmin⟩ := hi
  obtain ⟨c, hc, hch, hcmin⟩ := hj
  have hbc := hbmin j c hc hch
  have hcb := hcmin i b hb hbh
  rcases Nat.lt_trichotomy i j with hlt | heq | hgt
  · have := hcb.2 hlt
    omega
  · exact heq
  · have := hbc.2 hgt
    omega

theorem eq_of_getElem?_concat {bs : List Backend} {b c : Backend} {j : ℕ}
    (h : (bs ++ [b])[j]? = some c) : bs[j]? = some c ∨ (j = bs.length ∧ c = b) := by
  rcases Nat.lt_trichotomy j bs.length with hlt | rfl | hgt
  · rw [List.getElem?_append_left hlt] at h
    exact .inl h
  · exact .inr ⟨rfl, by simpa using h.symm⟩
  · have := (List.getElem?_eq_some_iff.mp h).1
    rw [List.length_append, List.length_singleton] at this
    omega

theorem getElem?_concat_of_some {bs : List Backend} {a : Backend} {i : ℕ} (h : bs[i]? = some a)
    (b : Backend) : (bs ++ [b])[i]? = some a := by
  rw [List.getElem?_append_left (List.getElem?_eq_some_iff.mp h).1]
  exact h

/-- The least loaded backend stays so unless the next one is healthy and less loaded. -/
theorem LeastLoaded.concat {bs : List Backend} {i : ℕ} {a b : Backend} (h : LeastLoaded bs i)
    (ha : bs[i]? = some a) (hle : b.healthy = true → a.activeConnections ≤ b.activeConnections) :
    LeastLoaded (bs ++ [b]) i := by
  obtain ⟨a', ha', hhealthy, hmin⟩ := h
  obtain rfl : a = a' := by simpa [ha] using ha'
  have hi := (List.getElem?_eq_some_iff.mp ha).1
  refine ⟨a, getElem?_concat_of_some ha b, hhealthy, fun j c hj hc => ?_⟩
  rcases eq_of_getElem?_concat hj with hj | ⟨rfl, rfl⟩
  · exact hmin j c hj hc
  · exact ⟨hle hc, fun hlt => by omega⟩

/-- A healthy backend that is less loaded than all before it is the least loaded. -/
theorem leastLoaded_concat_self {bs : List Backend} {b : Backend} (hb : b.healthy = true)
    (hlt : ∀ (j : ℕ) (c : Backend), bs[j]? = some c → c.healthy = true →
      b.activeConnections < c.activeConnections) : LeastLoaded (bs ++ [b]) bs.length := by
  refine ⟨b, by simp, hb, fun j c hj hc => ?_⟩
  rcases eq_of_getElem?_concat hj with hj | ⟨rfl, rfl⟩
  · exact ⟨(hlt j c hj hc).le, fun _ => hlt j c hj hc⟩
  · exact ⟨le_rfl, fun hlt => absurd hlt (lt_irrefl _)⟩

/-- The loop's invariant: `best` is the least loaded of the backends seen so far. -/
theorem foldl_better (bs : List Backend) :
    match bs.zipIdx.foldl better none with
    | none => ∀ b ∈ bs, b.healthy = false
    | some (i, conns) => LeastLoaded bs i ∧ ∃ b, bs[i]? = some b ∧ b.activeConnections = conns := by
  induction bs using List.reverseRecOn with
  | nil => simp
  | append_singleton bs b ih =>
    rw [List.zipIdx_append, List.foldl_append]
    simp only [List.zipIdx_cons, List.zipIdx_nil, List.foldl_cons, List.foldl_nil, Nat.zero_add]
    revert ih
    rcases bs.zipIdx.foldl better none with _ | ⟨i, conns⟩
    · intro hnone
      by_cases hb : b.healthy = true
      · simp only [better, hb, not_true_eq_false, if_false]
        refine ⟨leastLoaded_concat_self hb fun j c hj hc => ?_, b, by simp, rfl⟩
        simp [hnone c (List.mem_of_getElem? hj)] at hc
      · simp only [better, hb]
        intro c hc
        rcases List.mem_append.mp hc with hc | hc
        · exact hnone c hc
        · obtain rfl := List.mem_singleton.mp hc
          simpa using hb
    · rintro ⟨hleast, a, ha, rfl⟩
      by_cases hlt : b.healthy = true ∧ b.activeConnections < a.activeConnections
      · simp only [better, hlt, not_true_eq_false, if_false, if_true]
        refine ⟨leastLoaded_concat_self hlt.1 fun j c hj hc => ?_, b, by simp, rfl⟩
        obtain ⟨a', ha', -, hmin⟩ := hleast
        obtain rfl : a = a' := by simpa [ha] using ha'
        exact hlt.2.trans_le (hmin j c hj hc).1
      · -- an unhealthy backend is skipped, and one that is not less loaded is not better
        have hskip : better (some (i, a.activeConnections)) (b, bs.length)
            = some (i, a.activeConnections) := by
          by_cases hb : b.healthy = true
          · have hnot : ¬ b.activeConnections < a.activeConnections := fun h => hlt ⟨hb, h⟩
            simp [better, hb, hnot]
          · simp [better, hb]
        rw [hskip]
        refine ⟨hleast.concat ha fun hb => ?_, a, getElem?_concat_of_some ha b, rfl⟩
        exact not_lt.mp fun h => hlt ⟨hb, h⟩

/-- **`pickLeastConnections` picks the first of the least loaded healthy backends.** -/
theorem pickLeastConnections_eq_some_iff (lb : LoadBalancer) (i : ℕ) :
    lb.pickLeastConnections = some i ↔ LeastLoaded lb.backends i := by
  have hspec := foldl_better lb.backends
  unfold pickLeastConnections
  revert hspec
  rcases lb.backends.zipIdx.foldl better none with _ | ⟨k, conns⟩
  · intro hnone
    simp only [Option.map_none, reduceCtorEq, false_iff]
    rintro ⟨b, hb, hhealthy, -⟩
    simp [hnone b (List.mem_of_getElem? hb)] at hhealthy
  · rintro ⟨hleast, -⟩
    simp only [Option.map_some, Option.some.injEq]
    exact ⟨fun h => h ▸ hleast, fun h => hleast.unique h⟩

theorem pickLeastConnections_eq_none_iff (lb : LoadBalancer) :
    lb.pickLeastConnections = none ↔ ∀ j, lb.isHealthy j = false := by
  have hspec := foldl_better lb.backends
  unfold pickLeastConnections
  revert hspec
  rcases lb.backends.zipIdx.foldl better none with _ | ⟨k, conns⟩
  · intro hnone
    simp only [Option.map_none, true_iff]
    intro j
    rw [Bool.eq_false_iff, Ne, isHealthy_iff]
    rintro ⟨b, hb, hhealthy⟩
    simp [hnone b (List.mem_of_getElem? hb)] at hhealthy
  · rintro ⟨⟨b, hb, hhealthy, -⟩, -⟩
    simp only [Option.map_some, reduceCtorEq, false_iff, not_forall, Bool.not_eq_false]
    exact ⟨k, (lb.isHealthy_iff k).mpr ⟨b, hb, hhealthy⟩⟩

/-! ## Both strategies -/

/-- What is picked was healthy. -/
theorem isHealthy_of_pick {lb : LoadBalancer} {i : ℕ} (h : lb.pick.1 = some i) : lb.isHealthy i = true := by
  cases hstrategy : lb.strategy with
  | RoundRobin =>
    rw [pick_of_roundRobin hstrategy, pickRoundRobin] at h
    rcases lb.pickRoundRobinLoop_spec lb.size with ⟨k, -, hhealthy, -, heq⟩ | ⟨-, heq⟩
    · rw [heq, Option.some.injEq] at h
      exact h ▸ hhealthy
    · rw [heq] at h
      cases h
  | LeastConnections =>
    rw [pick_of_leastConnections hstrategy] at h
    obtain ⟨b, hb, hhealthy, -⟩ := (lb.pickLeastConnections_eq_some_iff i).mp h
    exact (lb.isHealthy_iff i).mpr ⟨b, hb, hhealthy⟩

theorem pickBackend_fst_eq_none_iff (lb : LoadBalancer) : lb.pickBackend.1 = none ↔ lb.pick.1 = none := by
  constructor
  · intro h
    by_contra hpick
    obtain ⟨i, hi⟩ := Option.ne_none_iff_exists'.mp hpick
    obtain ⟨b, hb, -⟩ := (lb.isHealthy_iff i).mp (isHealthy_of_pick hi)
    have := (lb.pickBackend_fst_eq_some_iff i b).mpr ⟨hi, hb⟩
    rw [h] at this
    cases this
  · intro h
    rw [pickBackend, h]
    rfl

/-- Only what is done to the one backend matters. -/
theorem update_congr {lb : LoadBalancer} {i : ℕ} {b : Backend} (hb : lb.backends[i]? = some b)
    {f g : Backend → Backend} (h : f b = g b) : lb.update i f = lb.update i g := by
  have hmodify : lb.backends.modify i f = lb.backends.modify i g := by
    refine List.ext_getElem? fun j => ?_
    rw [List.getElem?_modify, List.getElem?_modify]
    by_cases hj : i = j
    · subst hj
      simp [hb, h]
    · simp [hj]
  simp only [update, hmodify]

end LoadBalancer

end ApiGateway.Routing
