import ApiGateway.Common.Reactive
import Mathlib.Order.Monotone.Basic

/-!
# Progress of endless runs

A run that never ends is a sequence of moments. If a measure never grows, and gets smaller again and again
until something has happened, then it happens (`eventually_of_measure`).
-/

namespace Progress

variable {P : ℕ → Prop} {μ : ℕ → ℕ}

/-- **A measure that runs out.** From every moment on, the event comes or the measure gets smaller. -/
theorem eventually_of_measure (hle : ∀ n, μ (n + 1) ≤ μ n)
    (hprogress : ∀ n, ∃ m, n ≤ m ∧ (P m ∨ μ (m + 1) < μ m)) (n : ℕ) : ∃ m, n ≤ m ∧ P m := by
  -- induction on what is left of the measure
  induction hk : μ n using Nat.strongRecOn generalizing n with
  | ind k ih =>
    subst hk
    obtain ⟨m, hnm, hm | hlt⟩ := hprogress n
    · exact ⟨m, hnm, hm⟩
    · have hsmaller : μ (m + 1) < μ n := hlt.trans_le (antitone_nat_of_succ_le hle hnm)
      obtain ⟨m', hm', hP⟩ := ih _ hsmaller (m + 1) rfl
      exact ⟨m', by omega, hP⟩

section Fair

variable {σ ε : Type*} {next : σ → ε → σ} {x : ℕ → σ} {es : ℕ → ε} {P : σ → Prop} {μ : σ → ℕ}

/-- **Fair scheduling.** From a moment on, every event leaves the state as it is or makes the measure smaller, and
in every state before the goal some event that comes again and again makes it smaller. Then the goal is reached: until
the helpful event comes, the state stays as it is, or the measure has become smaller anyway. -/
theorem eventually_of_fair (hx : ∀ n, x (n + 1) = next (x n) (es n)) (k : ℕ)
    (hlazy : ∀ n, k ≤ n → x (n + 1) = x n ∨ μ (x (n + 1)) < μ (x n))
    (hhelp : ∀ n, k ≤ n → ¬ P (x n) →
      ∃ e, (∀ n', ∃ m, n' ≤ m ∧ es m = e) ∧ μ (next (x n) e) < μ (x n)) : ∃ m, k ≤ m ∧ P (x m) := by
  -- what has happened since a moment
  have hsince : ∀ n, k ≤ n → ∀ d, x (n + d) = x n ∨ ∃ m, n ≤ m ∧ μ (x m) < μ (x n) := by
    intro n hn d
    induction d with
    | zero => exact .inl rfl
    | succ d ih =>
      rcases ih with hsame | hless
      · rcases hlazy (n + d) (by omega) with hstay | hlt
        · exact .inl (hstay.trans hsame)
        · exact .inr ⟨n + d + 1, by omega, hsame ▸ hlt⟩
      · exact .inr hless
  have hreach : ∀ n, k ≤ n → ∃ m, n ≤ m ∧ P (x m) := by
    intro n hn
    induction hμ : μ (x n) using Nat.strongRecOn generalizing n with
    | ind l ih =>
      subst hμ
      by_cases hP : P (x n)
      · exact ⟨n, le_rfl, hP⟩
      · obtain ⟨e, hagain, hlt⟩ := hhelp n hn hP
        obtain ⟨m, hnm, hm⟩ := hagain n
        have hless : ∃ m, n ≤ m ∧ μ (x m) < μ (x n) := by
          rcases hsince n hn (m - n) with hsame | hless
          · rw [Nat.add_sub_cancel' hnm] at hsame
            refine ⟨m + 1, by omega, ?_⟩
            rw [hx, hm, hsame]
            exact hlt
          · exact hless
        obtain ⟨m₁, hm₁, hlt₁⟩ := hless
        obtain ⟨m₂, hm₂, hP₂⟩ := ih _ hlt₁ m₁ (by omega) rfl
        exact ⟨m₂, by omega, hP₂⟩
  exact hreach k le_rfl

end Fair

end Progress

namespace Reactive

variable {σ ε φ : Type*} (step : σ → ε → σ × List φ) (s : σ) (es : ℕ → ε)

/-- An endless run before the event with a number: the state and the log. -/
def moment (n : ℕ) : σ × List φ := run step s ((List.range n).map es)

theorem moment_succ (n : ℕ) :
    moment step s es (n + 1) = ((step (moment step s es n).1 (es n)).1,
      (moment step s es n).2 ++ (step (moment step s es n).1 (es n)).2) := by
  rw [moment, List.range_succ, List.map_append]
  exact run_concat step s _ _

/-- The log only grows. -/
theorem moment_log_prefix {n m : ℕ} (h : n ≤ m) :
    (moment step s es n).2 <+: (moment step s es m).2 := by
  induction h with
  | refl => exact List.prefix_rfl
  | step _ ih =>
    rw [moment_succ]
    exact ih.trans (List.prefix_append _ _)

end Reactive
