import Mathlib.Data.List.Infix
import Mathlib.Data.List.Induction
import Mathlib.Tactic.Common

/-!
# Machines that answer events with effects

A machine takes events one at a time, and each event gives effects. A run is the state after a sequence
of events, with the log of all effects. The surroundings may be held to a rule `ok` that tells, in a
state and after a log, which events are allowed: `run_invariant_of_rule` is induction over the runs that
keep to the rule, and `safe_iff` says when a rule is not only sufficient for safety, but also necessary.
-/

namespace Reactive

variable {σ ε φ : Type*} (step : σ → ε → σ × List φ)

/-- The state after some events, and the log. -/
def run (s : σ) (es : List ε) : σ × List φ :=
  es.foldl (fun r e => ((step r.1 e).1, r.2 ++ (step r.1 e).2)) (s, [])

theorem run_concat (s : σ) (es : List ε) (e : ε) :
    run step s (es ++ [e]) = ((step (run step s es).1 e).1,
      (run step s es).2 ++ (step (run step s es).1 e).2) := by
  rw [run, List.foldl_append]
  rfl

theorem run_append (s : σ) (es es' : List ε) :
    run step s (es ++ es') = ((run step (run step s es).1 es').1,
      (run step s es).2 ++ (run step (run step s es).1 es').2) := by
  induction es' using List.reverseRecOn with
  | nil => simp [run]
  | append_singleton es' e ih => rw [← List.append_assoc, run_concat, ih, run_concat, List.append_assoc]

theorem run_cons (s : σ) (e : ε) (es : List ε) :
    run step s (e :: es) = ((run step (step s e).1 es).1,
      (step s e).2 ++ (run step (step s e).1 es).2) :=
  run_append step s [e] es

variable {step} {s : σ} {I P : σ → List φ → Prop} {ok : σ → List φ → ε → Prop}

/-- The events from a state and a log on keep to the rule. -/
def Obeys (step : σ → ε → σ × List φ) (ok : σ → List φ → ε → Prop) : σ → List φ → List ε → Prop
  | _, _, [] => True
  | s, l, e :: es => ok s l e ∧ Obeys step ok (step s e).1 (l ++ (step s e).2) es

/-- The last event keeps to the rule. -/
theorem obeys_concat {l : List φ} {es : List ε} {e : ε} :
    Obeys step ok s l (es ++ [e]) ↔
      Obeys step ok s l es ∧ ok (run step s es).1 (l ++ (run step s es).2) e := by
  induction es generalizing s l with
  | nil => simp [Obeys, run]
  | cons e' es ih => rw [List.cons_append, Obeys, ih, Obeys, run_cons, and_assoc, List.append_assoc]

/-- The rule is kept by all events if it is kept by the last one of every beginning. -/
theorem obeys_iff {es : List ε} :
    Obeys step ok s [] es ↔ ∀ es' e, es' ++ [e] <+: es → ok (run step s es').1 (run step s es').2 e := by
  induction es using List.reverseRecOn with
  | nil => simp [Obeys]
  | append_singleton es e ih =>
    rw [obeys_concat, ih, List.nil_append]
    constructor
    · rintro ⟨hbefore, hlast⟩ es' e' h
      rcases List.prefix_concat_iff.mp h with heq | h
      · obtain ⟨rfl, hsame⟩ := List.append_inj' heq rfl
        obtain rfl := List.singleton_inj.mp hsame
        exact hlast
      · exact hbefore es' e' h
    · intro h
      exact ⟨fun es' e' h' => h es' e' (h'.trans (List.prefix_append _ _)), h es e (List.prefix_refl _)⟩

theorem Obeys.invariant (hstep : ∀ s l e, I s l → ok s l e → I (step s e).1 (l ++ (step s e).2))
    {es : List ε} (hok : Obeys step ok s [] es) (hinit : I s []) :
    I (run step s es).1 (run step s es).2 := by
  unfold run
  generalize ([] : List φ) = l at hok hinit ⊢
  induction es generalizing s l with
  | nil => exact hinit
  | cons e es ih => exact ih _ hok.2 (hstep s l e hinit hok.1)

/-- **Invariants of runs that keep to a rule.** -/
theorem run_invariant_of_rule (hinit : I s [])
    (hstep : ∀ s l e, I s l → ok s l e → I (step s e).1 (l ++ (step s e).2)) {es : List ε}
    (hok : ∀ es' e, es' ++ [e] <+: es → ok (run step s es').1 (run step s es').2 e) :
    I (run step s es).1 (run step s es).2 :=
  (obeys_iff.mpr hok).invariant hstep hinit

/-- **Invariants of all runs.** -/
theorem run_invariant (hinit : I s [])
    (hstep : ∀ s l e, I s l → I (step s e).1 (l ++ (step s e).2)) (es : List ε) :
    I (run step s es).1 (run step s es).2 := by
  have hstep' : ∀ s l e, I s l → True → I (step s e).1 (l ++ (step s e).2) :=
    fun s l e h _ => hstep s l e h
  exact run_invariant_of_rule hinit hstep' fun _ _ _ => trivial

/-- **Two machines that move alike.** What holds of their state and their logs at first and is kept by each
allowed event holds after every run of allowed events. -/
theorem run_related_of_rule {ψ : Type*} {step' : σ → ε → σ × List ψ} {R : σ → List φ → List ψ → Prop}
    {ok : ε → Prop} (halike : ∀ s e, (step s e).1 = (step' s e).1) (hinit : R s [] [])
    (hstep : ∀ s l l' e, R s l l' → ok e → R (step s e).1 (l ++ (step s e).2) (l' ++ (step' s e).2))
    (es : List ε) (hok : ∀ e ∈ es, ok e) :
    (run step s es).1 = (run step' s es).1 ∧
      R (run step s es).1 (run step s es).2 (run step' s es).2 := by
  induction es using List.reverseRecOn with
  | nil => exact ⟨rfl, hinit⟩
  | append_singleton es e ih =>
    obtain ⟨hstate, hlogs⟩ := ih fun e' he' => hok e' (List.mem_append_left _ he')
    rw [run_concat, run_concat, ← hstate]
    exact ⟨halike _ e, hstep _ _ _ e hlogs (hok e (List.mem_append_right _ List.mem_cons_self))⟩

/-- The same of the logs alone, for all events. -/
theorem run_related {ψ : Type*} {step' : σ → ε → σ × List ψ} {R : List φ → List ψ → Prop}
    (halike : ∀ s e, (step s e).1 = (step' s e).1) (hinit : R [] [])
    (hstep : ∀ s l l' e, R l l' → R (l ++ (step s e).2) (l' ++ (step' s e).2)) (es : List ε) :
    (run step s es).1 = (run step' s es).1 ∧ R (run step s es).2 (run step' s es).2 :=
  run_related_of_rule (R := fun _ => R) halike hinit
    (fun s l l' e h _ => hstep s l l' e h) es fun _ _ => trivial

/-- **The rule is exact.** If a rule keeps an invariant that implies safety, and breaking the rule makes
an unsafe state, then a run is safe throughout if and only if it keeps to the rule throughout. -/
theorem safe_iff (hinit : I s [])
    (hstep : ∀ s l e, I s l → ok s l e → I (step s e).1 (l ++ (step s e).2))
    (hsafe : ∀ s l, I s l → P s l)
    (hbreaks : ∀ s l e, I s l → ¬ ok s l e → ¬ P (step s e).1 (l ++ (step s e).2)) (es : List ε) :
    (∀ es', es' <+: es → P (run step s es').1 (run step s es').2) ↔
      ∀ es' e, es' ++ [e] <+: es → ok (run step s es').1 (run step s es').2 e := by
  constructor
  · intro hP
    induction es using List.reverseRecOn with
    | nil =>
      intro es' e h
      simp at h
    | append_singleton es e ih =>
      have hok := ih fun es' h => hP es' (h.trans (List.prefix_append _ _))
      intro es' e' h
      rcases List.prefix_concat_iff.mp h with heq | h
      · obtain ⟨rfl, hlast⟩ := List.append_inj' heq rfl
        obtain rfl := List.singleton_inj.mp hlast
        -- the rule has been kept so far, so that the last step tells
        by_contra hbroken
        have := hP (es' ++ [e']) (List.prefix_refl _)
        rw [run_concat] at this
        exact hbreaks _ _ _ (run_invariant_of_rule hinit hstep hok) hbroken this
      · exact hok es' e' h
  · intro hok es' hprefix
    refine hsafe _ _ (run_invariant_of_rule hinit hstep ?_)
    exact fun es'' e h => hok es'' e (h.trans hprefix)

end Reactive
