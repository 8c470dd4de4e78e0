import ApiGateway.Routing.ConcurrentPick
import Mathlib.Algebra.Order.BigOperators.Group.Finset
import Mathlib.Data.Int.CardIntervalMod
import Mathlib.Data.Set.Card

/-!
# Fairness of the round robin

While the counter does not wrap around, the draws of all picks together are the numbers from zero on, and
each healthy backend is returned exactly when its residue is drawn. So it is the draws that are counted and
not the picks (`Tally`): in a window of draws the residues come equally often, up to one. Picks that do not
overlap all succeed, and then as many picks as there are healthy backends return each of them once.
-/

namespace ApiGateway.Routing

open Interleaving LoadBalancer

/-! ## Residues in a window -/

/-- In `k` numbers in a row, each residue comes `k / n` times, or once more. -/
theorem count_residue {n i : ℕ} (a k : ℕ) (hi : i < n) :
    k / n ≤ Nat.count (fun j => (a + j) % n = i) k ∧
      Nat.count (fun j => (a + j) % n = i) k ≤ k / n + 1 := by
  have hresidue : ∀ j, (a + j) % n = i ↔ j ≡ i + (n - a % n) [MOD n] := by
    intro j
    have ha : a % n ≤ n := (Nat.mod_lt a (by omega)).le
    have hshift : a + (i + (n - a % n)) ≡ i [MOD n] := by
      have hsum : a % n + (i + (n - a % n)) = i + n := by omega
      rw [Nat.ModEq, ← Nat.mod_add_mod, hsum, Nat.add_mod_right]
    have hmod : (a + j) % n = i ↔ a + j ≡ i [MOD n] := by
      rw [Nat.ModEq, Nat.mod_eq_of_lt hi]
    rw [hmod]
    exact ⟨fun h => Nat.ModEq.add_left_cancel' a (h.trans hshift.symm),
      fun h => (h.add_left a).trans hshift⟩
  simp only [hresidue]
  rw [Nat.count_modEq_card k (by omega)]
  split <;> omega

theorem LoadBalancer.lt_size_of_isHealthy (lb : LoadBalancer) {i : ℕ} (h : lb.isHealthy i = true) :
    i < lb.size := by
  obtain ⟨b, hb, -⟩ := (lb.isHealthy_iff i).mp h
  exact (List.getElem?_eq_some_iff.mp hb).1

/-! ## Draws -/

variable {lb : LoadBalancer} {c : Config UInt64 Pick} {k : ℕ}

/-- The number of `fetch_add` steps of a schedule. -/
def draws (lb : LoadBalancer) : List ℕ → Config UInt64 Pick → ℕ
  | [], _ => 0
  | t :: schedule, c =>
    (match c.threads t with
      | .drawing _ => 1
      | .done _ => 0) + draws lb schedule (stepThread (drawStep lb) c t)

theorem draws_append (lb : LoadBalancer) (s₁ s₂ : List ℕ) (c : Config UInt64 Pick) :
    draws lb (s₁ ++ s₂) c = draws lb s₁ c + draws lb s₂ (run (drawStep lb) s₁ c) := by
  induction s₁ generalizing c with
  | nil => simp [draws]
  | cons t s₁ ih => rw [List.cons_append, draws, draws, ih, run_cons, Nat.add_assoc]

theorem draws_le_length (lb : LoadBalancer) (schedule : List ℕ) (c : Config UInt64 Pick) :
    draws lb schedule c ≤ schedule.length := by
  induction schedule generalizing c with
  | nil => exact le_rfl
  | cons t schedule ih =>
    have := ih (stepThread (drawStep lb) c t)
    rw [draws, List.length_cons]
    split <;> omega

/-- The picks that have returned a backend. -/
def returned (c : Config UInt64 Pick) (i : ℕ) : Set ℕ := {t | c.threads t = .done (some i)}

/-- After `k` draws, a healthy backend was returned as often as its residue was drawn. -/
structure Tally (lb : LoadBalancer) (k : ℕ) (c : Config UInt64 Pick) : Prop where
  shared : c.shared = UInt64.ofNat k
  healthy : ∀ t i, c.threads t = .done (some i) → lb.isHealthy i = true
  encard_returned : ∀ i, lb.isHealthy i = true →
    (returned c i).encard = Nat.count (· % lb.size = i) k

theorem tally_atStart (lb : LoadBalancer) : Tally lb 0 (atStart 0) where
  shared := rfl
  healthy := by simp [atStart]
  encard_returned := by simp [returned, atStart]

/-- What a round leaves of a pick: it returns the backend it has drawn if that is healthy. -/
theorem drawStep_drawing (h : Tally lb k c) (hk : k < 2 ^ 64) (i j : ℕ) :
    (drawStep lb c.shared (.drawing i)).1 = UInt64.ofNat (k + 1) ∧
      ((drawStep lb c.shared (.drawing i)).2 = .done (some j) ↔
        lb.isHealthy j = true ∧ k % lb.size = j) := by
  have hcounter : c.shared.toNat = k := by
    rw [h.shared, UInt64.toNat_ofNat', Nat.mod_eq_of_lt hk]
  simp only [drawStep, hcounter]
  refine ⟨by rw [h.shared, UInt64.ofNat_add]; rfl, ?_⟩
  by_cases hhealthy : lb.isHealthy (k % lb.size) = true
  · simp only [hhealthy, if_true, Pick.done.injEq, Option.some.injEq]
    exact ⟨fun heq => ⟨heq ▸ hhealthy, heq⟩, fun heq => heq.2⟩
  · have hfound : ¬ (lb.isHealthy j = true ∧ k % lb.size = j) := fun heq => hhealthy (heq.2 ▸ heq.1)
    rw [if_neg hhealthy, iff_false_intro hfound, iff_false]
    split <;> simp

/-- **One step counts.** -/
theorem Tally.step (h : Tally lb k c) (t : ℕ) (hk : k + draws lb [t] c < 2 ^ 64) :
    Tally lb (k + draws lb [t] c) (stepThread (drawStep lb) c t) := by
  cases hthread : c.threads t with
  | done r =>
    have hsame : stepThread (drawStep lb) c t = c := run_replicate_done t 1 hthread
    simpa [hsame, draws, hthread] using h
  | drawing i =>
    have hdraws : draws lb [t] c = 1 := by simp [draws, hthread]
    rw [hdraws] at hk ⊢
    have hdone := drawStep_drawing h (by omega) i
    refine ⟨?_, ?_, ?_⟩
    · simp [stepThread, hthread, (hdone 0).1]
    · intro u j hu
      by_cases hut : u = t
      · subst hut
        rw [stepThread_self, hthread] at hu
        exact ((hdone j).2.mp hu).1
      · rw [stepThread_of_ne c hut] at hu
        exact h.healthy u j hu
    · intro j hj
      -- draw number `k` is for the backend with its residue, and for no other
      have hnew : returned (stepThread (drawStep lb) c t) j
          = if k % lb.size = j then insert t (returned c j) else returned c j := by
        ext u
        by_cases hut : u = t
        · subst hut
          have hu : u ∈ returned (stepThread (drawStep lb) c u) j ↔ k % lb.size = j := by
            rw [returned, Set.mem_ofPred_eq, stepThread_self, hthread, (hdone j).2]
            exact and_iff_right hj
          have hbefore : u ∉ returned c j := by simp [returned, hthread]
          rw [hu]
          split <;> simp_all
        · have hu : u ∈ returned (stepThread (drawStep lb) c t) j ↔ u ∈ returned c j := by
            rw [returned, Set.mem_ofPred_eq, stepThread_of_ne c hut, returned,
              Set.mem_ofPred_eq]
          rw [hu]
          split <;> simp [hut]
      rw [hnew, Nat.count_succ]
      split
      · rw [Set.encard_insert_of_notMem (by simp [returned, hthread]), h.encard_returned j hj]
        rfl
      · rw [h.encard_returned j hj, Nat.add_zero]

/-- **Every run counts.** -/
theorem Tally.after (schedule : List ℕ) (h : Tally lb k c) (hk : k + draws lb schedule c < 2 ^ 64) :
    Tally lb (k + draws lb schedule c) (run (drawStep lb) schedule c) := by
  induction schedule generalizing k c with
  | nil => exact h
  | cons t schedule ih =>
    have hsplit := draws_append lb [t] schedule c
    rw [List.singleton_append, run_cons, run_nil] at hsplit
    rw [hsplit, ← Nat.add_assoc] at hk ⊢
    exact ih (h.step t (by omega)) hk

/-- Each of the healthy backends has been returned equally often, up to one. -/
theorem Tally.fair (h : Tally lb k c) {i j : ℕ} (hi : lb.isHealthy i = true)
    (hj : lb.isHealthy j = true) : (returned c i).encard ≤ (returned c j).encard + 1 := by
  have hcount := fun i hi => count_residue (i := i) (n := lb.size) 0 k hi
  simp only [Nat.zero_add] at hcount
  rw [h.encard_returned i hi, h.encard_returned j hj]
  have := (hcount i (lb.lt_size_of_isHealthy hi)).2
  have := (hcount j (lb.lt_size_of_isHealthy hj)).1
  norm_cast
  omega

/-! ## Picks that do not overlap -/

/-- Each pick makes all of its rounds before the next one begins. -/
def oneByOne (lb : LoadBalancer) (ts : List ℕ) : List ℕ := ts.flatMap (List.replicate lb.size)

/-- A pick alone succeeds if a backend is healthy: in `size` draws in a row every backend is drawn. -/
theorem Tally.alone (h : Tally lb k c) {t : ℕ} (hfresh : c.threads t = .drawing 0)
    (hk : k + draws lb (List.replicate lb.size t) c < 2 ^ 64) {idx : ℕ}
    (hidx : lb.isHealthy idx = true) :
    ∃ i, lb.isHealthy i = true ∧
      (run (drawStep lb) (List.replicate lb.size t) c).threads t = .done (some i) := by
  have hlt := lb.lt_size_of_isHealthy hidx
  obtain ⟨rounds, hrounds⟩ : ∃ rounds, lb.size = rounds + 1 :=
    Nat.exists_eq_succ_of_ne_zero (by omega)
  set lb' : LoadBalancer := { lb with rrCounter := c.shared } with hlb'
  obtain ⟨hdone, hshared⟩ := run_alone_loop t rounds lb' (i := 0) (c := c)
    (by rw [Nat.zero_add]; exact hrounds.symm) rfl hfresh
  rcases lb'.pickRoundRobinLoop_spec (rounds + 1) with ⟨j, -, hhealthy, -, heq⟩ | ⟨hnone, heq⟩
  · refine ⟨lb'.draw j, hhealthy, ?_⟩
    rw [hrounds, ← congrArg (fun r => Pick.done r.1) heq]
    exact hdone
  · -- after a vain search the counter has moved by `size` without a seam
    exfalso
    have hcounter : c.shared.toNat = k := by
      rw [h.shared, UInt64.toNat_ofNat', Nat.mod_eq_of_lt (by omega)]
    have hmoved : (k + draws lb (List.replicate lb.size t) c) % 2 ^ 64 = (k + lb.size) % 2 ^ 64 := by
      have hafter := (h.after _ hk).shared
      rw [hrounds] at hafter
      have := congrArg UInt64.toNat (hafter.symm.trans (hshared.trans (congrArg (·.2.rrCounter) heq)))
      simpa [advance, hlb', hcounter, hrounds] using this
    have hle := draws_le_length lb (List.replicate lb.size t) c
    have hsize := lb.size_lt
    rw [List.length_replicate] at hle
    change lb.size < _ at hsize
    have hseamless : lb'.Seamless := .inl (by
      change c.shared.toNat + lb.size ≤ _
      omega)
    have hlt' : idx < lb'.size := hlt
    obtain ⟨j, hj, hdraw⟩ := hseamless.exists_draw_eq hlt'
    have hbad := hnone j (hrounds ▸ hj)
    rw [hdraw] at hbad
    exact absurd (hidx.symm.trans hbad) (by decide)

theorem oneByOne_append (lb : LoadBalancer) (ts₁ ts₂ : List ℕ) :
    oneByOne lb (ts₁ ++ ts₂) = oneByOne lb ts₁ ++ oneByOne lb ts₂ := by
  simp [oneByOne]

theorem mem_of_mem_oneByOne {ts : List ℕ} {t : ℕ} (h : t ∈ oneByOne lb ts) : t ∈ ts := by
  simp only [oneByOne, List.mem_flatMap, List.mem_replicate] at h
  obtain ⟨u, hu, -, rfl⟩ := h
  exact hu

/-- The picks of others do not change what a pick is at. -/
theorem threads_oneByOne_of_notMem {ts : List ℕ} {t : ℕ} (h : t ∉ ts) (c : Config UInt64 Pick) :
    (run (drawStep lb) (oneByOne lb ts) c).threads t = c.threads t :=
  run_threads_of_not_mem (fun hmem => h (mem_of_mem_oneByOne hmem)) c

/-- **Every pick of a sequence succeeds.** -/
theorem Tally.sequence {ts : List ℕ} (h : Tally lb k c) (hnodup : ts.Nodup)
    (hfresh : ∀ t ∈ ts, c.threads t = .drawing 0)
    (hk : k + draws lb (oneByOne lb ts) c < 2 ^ 64) {idx : ℕ} (hidx : lb.isHealthy idx = true) :
    ∀ t ∈ ts, ∃ i, lb.isHealthy i = true ∧
      (run (drawStep lb) (oneByOne lb ts) c).threads t = .done (some i) := by
  induction ts generalizing k c with
  | nil => simp
  | cons u ts ih =>
    obtain ⟨hnotMem, hnodup⟩ := List.nodup_cons.mp hnodup
    have hfirst : oneByOne lb [u] = List.replicate lb.size u := by simp [oneByOne]
    rw [← List.singleton_append, oneByOne_append, hfirst, draws_append, ← Nat.add_assoc] at hk
    rw [← List.singleton_append, oneByOne_append, hfirst, run_append]
    intro t ht
    rcases List.mem_append.mp ht with hhead | htail
    · obtain rfl := List.mem_singleton.mp hhead
      rw [threads_oneByOne_of_notMem hnotMem]
      exact h.alone (hfresh t List.mem_cons_self) (by omega) hidx
    · refine ih (h.after _ (by omega)) hnodup (fun t ht => ?_) hk t htail
      have hne : t ∉ [u] := fun hmem => hnotMem (List.mem_singleton.mp hmem ▸ ht)
      rw [← hfirst, threads_oneByOne_of_notMem hne]
      exact hfresh t (List.mem_cons_of_mem _ ht)

/-- The indices of the healthy backends. -/
def healthyIndices (lb : LoadBalancer) : Finset ℕ := (Finset.range lb.size).filter (lb.isHealthy ·)

theorem mem_healthyIndices (i : ℕ) : i ∈ healthyIndices lb ↔ lb.isHealthy i = true := by
  rw [healthyIndices, Finset.mem_filter, Finset.mem_range]
  exact and_iff_right_of_imp lb.lt_size_of_isHealthy

theorem card_filter_range_any {α : Type*} (p : α → Bool) (l : List α) :
    ((Finset.range l.length).filter fun i => l[i]?.any p).card = l.countP p := by
  induction l using List.reverseRecOn with
  | nil => rfl
  | append_singleton l a ih =>
    have hold : (Finset.range l.length).filter (fun i => (l ++ [a])[i]?.any p)
        = (Finset.range l.length).filter fun i => l[i]?.any p := by
      refine Finset.filter_congr fun i hi => ?_
      rw [List.getElem?_append_left (Finset.mem_range.mp hi)]
    rw [List.length_append, List.length_singleton, Finset.range_add_one, Finset.filter_insert, hold,
      List.countP_append, List.countP_singleton, ← ih]
    cases hp : p a with
    | false => simp [hp]
    | true => simp [hp]

theorem card_healthyIndices (lb : LoadBalancer) :
    (healthyIndices lb).card = lb.backends.countP (·.healthy) :=
  card_filter_range_any _ _

/-- In a sequence of picks from here on, a backend is returned as often as its residue is drawn. -/
theorem Tally.card_filter {ts : List ℕ} (h : Tally lb k c) (hfresh : ∀ t ∈ ts, c.threads t = .drawing 0)
    (hk : k + draws lb (oneByOne lb ts) c < 2 ^ 64) {i : ℕ} (hi : lb.isHealthy i = true) :
    (ts.toFinset.filter fun t =>
        (run (drawStep lb) (oneByOne lb ts) c).threads t = .done (some i)).card
      = Nat.count (fun j => (k + j) % lb.size = i) (draws lb (oneByOne lb ts) c) := by
  set c' := run (drawStep lb) (oneByOne lb ts) c with hc'
  set new := ts.toFinset.filter fun t => c'.threads t = .done (some i) with hnew
  have hsplit : returned c' i = returned c i ∪ new := by
    ext t
    by_cases ht : t ∈ ts
    · simp [returned, hnew, ht, hfresh t ht]
    · simp [returned, hnew, ht, hc', threads_oneByOne_of_notMem ht]
  have hdisjoint : Disjoint (returned c i) new := by
    rw [Set.disjoint_left]
    intro t hold ht
    have hmem : t ∈ ts := by simp only [hnew, Finset.coe_filter] at ht; simpa using ht.1
    simp [returned, hfresh t hmem] at hold
  have hafter := (h.after _ hk).encard_returned i hi
  rw [hsplit, Set.encard_union_eq hdisjoint, h.encard_returned i hi, Nat.count_add,
    Set.encard_coe_eq_coe_finsetCard] at hafter
  norm_cast at hafter
  omega

/-- **A sequence of as many picks as there are healthy backends returns each of them once.** -/
theorem Tally.round {ts : List ℕ} (h : Tally lb k c) (hnodup : ts.Nodup)
    (hfresh : ∀ t ∈ ts, c.threads t = .drawing 0)
    (hk : k + draws lb (oneByOne lb ts) c < 2 ^ 64)
    (hlength : ts.length = lb.backends.countP (·.healthy)) {i : ℕ} (hi : lb.isHealthy i = true) :
    ∃! t, t ∈ ts ∧ (run (drawStep lb) (oneByOne lb ts) c).threads t = .done (some i) := by
  have hcard := fun i hi => h.card_filter hfresh hk (i := i) hi
  have hsucceed := h.sequence hnodup hfresh hk hi
  set threads := (run (drawStep lb) (oneByOne lb ts) c).threads
  set times := fun i => (ts.toFinset.filter fun t => threads t = .done (some i)).card
  have htotal : ∑ i ∈ healthyIndices lb, times i = ∑ i ∈ healthyIndices lb, 1 := by
    have hmaps : ∀ t ∈ ts.toFinset,
        threads t ∈ (healthyIndices lb).image fun i => Pick.done (some i) := by
      intro t ht
      obtain ⟨j, hj, hdone⟩ := hsucceed t (List.mem_toFinset.mp ht)
      exact Finset.mem_image.mpr ⟨j, (mem_healthyIndices j).mpr hj, hdone.symm⟩
    have hfibers := Finset.card_eq_sum_card_fiberwise hmaps
    rw [Finset.sum_image (by simp), List.toFinset_card_of_nodup hnodup, hlength,
      ← card_healthyIndices] at hfibers
    rw [← Finset.card_eq_sum_ones, hfibers]
  -- all of them at most once, or all of them at least once
  have hbounds : ∀ j ∈ healthyIndices lb, draws lb (oneByOne lb ts) c / lb.size ≤ times j ∧
      times j ≤ draws lb (oneByOne lb ts) c / lb.size + 1 := by
    intro j hj
    have hhealthy := (mem_healthyIndices j).mp hj
    rw [show times j = _ from hcard j hhealthy]
    exact count_residue k _ (lb.lt_size_of_isHealthy hhealthy)
  have honce : times i = 1 := by
    have hmem := (mem_healthyIndices i).mpr hi
    rcases Nat.eq_zero_or_pos (draws lb (oneByOne lb ts) c / lb.size) with hzero | hpos
    · refine (Finset.sum_eq_sum_iff_of_le fun j hj => ?_).mp htotal i hmem
      have := (hbounds j hj).2
      omega
    · refine ((Finset.sum_eq_sum_iff_of_le fun j hj => ?_).mp htotal.symm i hmem).symm
      have := (hbounds j hj).1
      omega
  obtain ⟨t, ht⟩ := Finset.card_eq_one.mp honce
  have hiff : ∀ u, (u ∈ ts ∧ threads u = .done (some i)) ↔ u = t := by
    intro u
    have hu := Finset.ext_iff.mp ht u
    rwa [Finset.mem_filter, List.mem_toFinset, Finset.mem_singleton] at hu
  exact ⟨t, (hiff t).mpr rfl, fun u hu => (hiff u).mp hu⟩

/-- **Fairness.** From a zero counter and with fewer than `2 ^ 64` draws: after every schedule, any two
healthy backends have been returned equally often up to one, and no other backend was returned; picks that
do not overlap all succeed, if a backend is healthy, and any sequence of as many picks as there are healthy
backends returns each of them exactly once. -/
theorem round_robin_fair (lb : LoadBalancer) :
    (∀ schedule, draws lb schedule (atStart 0) < 2 ^ 64 →
      (∀ i j, lb.isHealthy i = true → lb.isHealthy j = true →
        (returned (run (drawStep lb) schedule (atStart 0)) i).encard
          ≤ (returned (run (drawStep lb) schedule (atStart 0)) j).encard + 1) ∧
      ∀ t i, (run (drawStep lb) schedule (atStart 0)).threads t = .done (some i) →
        lb.isHealthy i = true) ∧
    ∀ ts : List ℕ, ts.Nodup → draws lb (oneByOne lb ts) (atStart 0) < 2 ^ 64 →
      ((∃ b ∈ lb.backends, b.healthy = true) →
        ∀ t ∈ ts, ∃ i, lb.isHealthy i = true ∧
          (run (drawStep lb) (oneByOne lb ts) (atStart 0)).threads t = .done (some i)) ∧
      ∀ before window after, ts = before ++ window ++ after →
        window.length = lb.backends.countP (·.healthy) →
        ∀ i, lb.isHealthy i = true → ∃! t, t ∈ window ∧
          (run (drawStep lb) (oneByOne lb ts) (atStart 0)).threads t = .done (some i) := by
  have hstart := tally_atStart lb
  refine ⟨fun schedule hdraws => ?_, fun ts hnodup hdraws => ⟨?_, ?_⟩⟩
  · have htally := hstart.after schedule (by omega)
    exact ⟨fun i j => htally.fair, htally.healthy⟩
  · rintro ⟨b, hb, hhealthy⟩
    obtain ⟨idx, hidx⟩ := List.mem_iff_getElem?.mp hb
    exact hstart.sequence hnodup (fun _ _ => rfl) (by omega)
      ((lb.isHealthy_iff idx).mpr ⟨b, hidx, hhealthy⟩)
  · rintro before window after rfl hlength i hi
    rw [oneByOne_append, oneByOne_append, draws_append, draws_append] at hdraws
    obtain ⟨hleft, hafter, hdisjoint'⟩ := List.nodup_append'.mp hnodup
    obtain ⟨hbefore, hwindow, hdisjoint⟩ := List.nodup_append'.mp hleft
    have htally := hstart.after (oneByOne lb before) (by omega)
    have hfresh : ∀ t ∈ window,
        (run (drawStep lb) (oneByOne lb before) (atStart 0)).threads t = .drawing 0 := by
      intro t ht
      rw [threads_oneByOne_of_notMem fun hmem => hdisjoint hmem ht]
      rfl
    have honce := htally.round hwindow hfresh (by omega) hlength hi
    -- the picks after the window leave its results
    rw [oneByOne_append, oneByOne_append, run_append, run_append]
    have hkept : ∀ t ∈ window, t ∉ after := fun t ht => hdisjoint' (List.mem_append_right _ ht)
    refine (existsUnique_congr fun t => and_congr_right fun ht => ?_).mpr honce
    rw [threads_oneByOne_of_notMem (hkept t ht)]

/-- Two backends of which one is healthy: three picks, one after the other. -/
theorem round_robin_fair_halfHealthy :
    (∃ b ∈ halfHealthy.backends, b.healthy = true) ∧
      draws halfHealthy (oneByOne halfHealthy [4, 2, 7]) (atStart 0) < 2 ^ 64 ∧
      ∀ t ∈ [4, 2, 7], ∃ i, halfHealthy.isHealthy i = true ∧
        (run (drawStep halfHealthy) (oneByOne halfHealthy [4, 2, 7]) (atStart 0)).threads t
          = .done (some i) :=
  have hdraws : draws halfHealthy (oneByOne halfHealthy [4, 2, 7]) (atStart 0) < 2 ^ 64 := by decide
  ⟨by decide, hdraws,
    ((round_robin_fair halfHealthy).2 [4, 2, 7] (by decide) hdraws).1 (by decide)⟩

end ApiGateway.Routing
