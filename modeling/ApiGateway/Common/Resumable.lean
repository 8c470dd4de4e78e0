import Mathlib.Data.List.Basic
import Mathlib.Tactic.Common

/-!
# Resumable scanners

A scanner reads a stream that arrives in pieces. In a control state `σ` it looks at all the unread
input there is and either wants more, or gives up, or takes a step: a new state, the input that is
left, and possibly a result. `drain` steps until the scanner wants more or gives up.

A step, once possible, must stay the same step when input is added behind it (`next_append`). Giving
up need not have that property: a scanner with a size limit gives up on a long unfinished item that
more input might have finished. So chunk invariance (`feed_eq_drain`) is stated for streams on which
giving up is `Steady` at every configuration the scanner passes through.
-/

namespace Resumable

/-- What a scanner makes of the unread input. -/
inductive Step (σ α ρ : Type*) where
  | more
  | fail
  | next (s : σ) (rest : List α) (out : Option ρ)

/-- How draining ends: waiting in a state with some unread input, or given up. -/
inductive Halt (σ α : Type*) where
  | more (s : σ) (rest : List α)
  | fail

/-- A scanner, with a measure that its steps decrease. -/
structure Scanner (σ α ρ : Type*) where
  step : σ → List α → Step σ α ρ
  size : σ → List α → ℕ
  size_lt : ∀ {s u s' r o}, step s u = .next s' r o → size s' r < size s u
  next_append : ∀ {s u s' r o}, step s u = .next s' r o → ∀ v, step s (u ++ v) = .next s' (r ++ v) o

namespace Scanner

variable {σ α ρ : Type*} (m : Scanner σ α ρ)

/-- Induction along the steps of a scanner. -/
@[elab_as_elim]
theorem step_induction {motive : σ → List α → Prop}
    (ind : ∀ s u, (∀ s' r o, m.step s u = .next s' r o → motive s' r) → motive s u)
    (s : σ) (u : List α) : motive s u := by
  induction hn : m.size s u using Nat.strongRecOn generalizing s u with
  | ind n ih =>
    subst hn
    exact ind s u fun s' r o hstep => ih _ (m.size_lt hstep) s' r rfl

/-- Step until more input is needed or the scanner gives up, collecting the results. -/
def drain (s : σ) (u : List α) : List ρ × Halt σ α :=
  match _h : m.step s u with
  | .more => ([], .more s u)
  | .fail => ([], .fail)
  | .next s' r o =>
    let t := drain s' r
    (o.toList ++ t.1, t.2)
termination_by m.size s u
decreasing_by exact m.size_lt _h

theorem drain_of_more {s : σ} {u : List α} (h : m.step s u = .more) :
    m.drain s u = ([], .more s u) := by
  rw [drain]
  split <;> simp_all

theorem drain_of_fail {s : σ} {u : List α} (h : m.step s u = .fail) :
    m.drain s u = ([], .fail) := by
  rw [drain]
  split <;> simp_all

theorem drain_of_next {s s' : σ} {u r : List α} {o : Option ρ} (h : m.step s u = .next s' r o) :
    m.drain s u = (o.toList ++ (m.drain s' r).1, (m.drain s' r).2) := by
  rw [drain]
  split <;> simp_all

/-! ## The configurations passed through -/

/-- `(s', u')` is reached from `(s, u)` by steps. -/
inductive Visits : σ → List α → σ → List α → Prop
  | refl (s u) : Visits s u s u
  | step {s u s₁ u₁ s₂ u₂ o} : m.step s u = .next s₁ u₁ o → Visits s₁ u₁ s₂ u₂ → Visits s u s₂ u₂

/-- `(s', u')` is reached from `(s, u)` by steps without a result. -/
inductive Silent : σ → List α → σ → List α → Prop
  | refl (s u) : Silent s u s u
  | step {s u s₁ u₁ s₂ u₂} :
      m.step s u = .next s₁ u₁ none → Silent s₁ u₁ s₂ u₂ → Silent s u s₂ u₂

variable {m}

theorem Silent.drain_eq {s s' : σ} {u u' : List α} (h : m.Silent s u s' u') :
    m.drain s u = m.drain s' u' := by
  induction h with
  | refl => rfl
  | step hstep _ ih => rw [m.drain_of_next hstep, ih]; simp

theorem Silent.trans {s₁ s₂ s₃ : σ} {u₁ u₂ u₃ : List α} (h : m.Silent s₁ u₁ s₂ u₂)
    (h' : m.Silent s₂ u₂ s₃ u₃) : m.Silent s₁ u₁ s₃ u₃ := by
  induction h with
  | refl => exact h'
  | step hstep _ ih => exact .step hstep (ih h')

/-- Input added behind changes nothing. -/
theorem Silent.append {s s' : σ} {u u' : List α} (h : m.Silent s u s' u') (v : List α) :
    m.Silent s (u ++ v) s' (u' ++ v) := by
  induction h with
  | refl => exact .refl _ _
  | step hstep _ ih => exact .step (m.next_append hstep v) ih

/-- Steps are deterministic: two silent runs that both end where no silent step is possible end alike. -/
theorem Silent.unique {s s₁ s₂ : σ} {u u₁ u₂ : List α} (h₁ : m.Silent s u s₁ u₁)
    (h₂ : m.Silent s u s₂ u₂) (hend₁ : ∀ s' r, m.step s₁ u₁ ≠ .next s' r none)
    (hend₂ : ∀ s' r, m.step s₂ u₂ ≠ .next s' r none) : s₁ = s₂ ∧ u₁ = u₂ := by
  induction h₁ with
  | refl =>
    cases h₂ with
    | refl => exact ⟨rfl, rfl⟩
    | step hstep _ => exact absurd hstep (hend₁ _ _)
  | step hstep _ ih =>
    cases h₂ with
    | refl => exact absurd hstep (hend₂ _ _)
    | step hstep' hrest =>
      rw [hstep] at hstep'
      obtain ⟨rfl, rfl, -⟩ := Step.next.inj hstep'
      exact ih hrest hend₁

theorem Visits.trans {s₁ s₂ s₃ : σ} {u₁ u₂ u₃ : List α} (h : m.Visits s₁ u₁ s₂ u₂)
    (h' : m.Visits s₂ u₂ s₃ u₃) : m.Visits s₁ u₁ s₃ u₃ := by
  induction h with
  | refl => exact h'
  | step hstep _ ih => exact .step hstep (ih h')

/-- Induction along a drain that ends waiting. -/
@[elab_as_elim]
theorem drain_more_induction {s' : σ} {u' : List α} {motive : σ → List α → List ρ → Prop}
    (wait : m.step s' u' = .more → motive s' u' [])
    (next : ∀ {s u s₁ r o₁ o}, m.step s u = .next s₁ r o₁ → motive s₁ r o →
      motive s u (o₁.toList ++ o))
    {s : σ} {u : List α} {o : List ρ} (h : m.drain s u = (o, .more s' u')) : motive s u o := by
  induction s, u using m.step_induction generalizing o with
  | ind s u ih =>
    cases hstep : m.step s u with
    | more =>
      rw [m.drain_of_more hstep] at h
      simp only [Prod.mk.injEq, Halt.more.injEq] at h
      obtain ⟨rfl, rfl, rfl⟩ := h
      exact wait hstep
    | fail =>
      rw [m.drain_of_fail hstep] at h
      simp at h
    | next s₁ r o₁ =>
      rw [m.drain_of_next hstep] at h
      obtain ⟨rfl, hhalt⟩ := Prod.mk.inj h
      exact next hstep (ih _ _ _ hstep (Prod.ext rfl hhalt))

/-- Draining part of a stream passes through configurations of draining all of it. -/
theorem visits_of_drain {s s' : σ} {u u' : List α} {o : List ρ} (v : List α)
    (h : m.drain s u = (o, .more s' u')) : m.Visits s (u ++ v) s' (u' ++ v) := by
  refine drain_more_induction ?_ ?_ h
  · exact fun _ => .refl _ _
  · exact fun hstep ih => .step (m.next_append hstep v) ih

/-- Draining goes on from where a part of the stream has left the scanner waiting. -/
theorem drain_append_of_more {s s' : σ} {u u' : List α} {o : List ρ}
    (h : m.drain s u = (o, .more s' u')) (v : List α) :
    m.drain s (u ++ v) = (o ++ (m.drain s' (u' ++ v)).1, (m.drain s' (u' ++ v)).2) := by
  refine drain_more_induction ?_ ?_ h
  · exact fun _ => rfl
  · intro s u s₁ r o₁ o hstep ih
    rw [m.drain_of_next (m.next_append hstep v), ih, List.append_assoc]

/-- The results of a part of the stream come first. -/
theorem prefix_drain_append (s : σ) (u v : List α) : (m.drain s u).1 <+: (m.drain s (u ++ v)).1 := by
  induction s, u using m.step_induction with
  | ind s u ih =>
    cases hstep : m.step s u with
    | more =>
      rw [m.drain_of_more hstep]
      exact List.nil_prefix
    | fail =>
      rw [m.drain_of_fail hstep]
      exact List.nil_prefix
    | next s₁ r o₁ =>
      rw [m.drain_of_next hstep, m.drain_of_next (m.next_append hstep v)]
      exact List.prefix_append_right_inj _ |>.mpr (ih _ _ _ hstep)

/-- A scanner that waits has no step to take. -/
theorem step_eq_more_of_drain {s s' : σ} {u u' : List α} {o : List ρ}
    (h : m.drain s u = (o, .more s' u')) : m.step s' u' = .more :=
  drain_more_induction (motive := fun _ _ _ => m.step s' u' = .more) (fun hwait => hwait) (fun _ ih => ih) h

variable (m)

/-! ## Chunk invariance -/

/-- Whoever gives up on a part of `w` gives up on `w` as well. -/
def Steady (s : σ) (w : List α) : Prop :=
  ∀ u v, w = u ++ v → m.step s u = .fail → m.step s w = .fail

/-- **Draining a concatenation.** The results of the first part come first; draining then continues
from where the first part left off, unless the scanner has given up. -/
theorem drain_append {s : σ} (u v : List α)
    (hsteady : ∀ s' w, m.Visits s (u ++ v) s' w → m.Steady s' w) :
    m.drain s (u ++ v) =
      match m.drain s u with
      | (o, .fail) => (o, .fail)
      | (o, .more s' u') => (o ++ (m.drain s' (u' ++ v)).1, (m.drain s' (u' ++ v)).2) := by
  induction s, u using m.step_induction with
  | ind s u ih =>
    cases hstep : m.step s u with
    | more => rw [m.drain_of_more hstep]; simp
    | fail =>
      have hfail := hsteady s (u ++ v) (.refl _ _) u v rfl hstep
      rw [m.drain_of_fail hstep, m.drain_of_fail hfail]
    | next s₁ r o =>
      have hnext := m.next_append hstep v
      rw [m.drain_of_next hstep, m.drain_of_next hnext,
        ih _ _ _ hstep fun s' w h => hsteady s' w (.step hnext h)]
      rcases m.drain s₁ r with ⟨o', s' | _⟩ <;> simp

/-- Feed chunk after chunk, draining after each, until the scanner gives up. -/
def feed (s : σ) (u : List α) : List (List α) → List ρ × Halt σ α
  | [] => ([], .more s u)
  | c :: cs =>
    match m.drain s (u ++ c) with
    | (o, .fail) => (o, .fail)
    | (o, .more s' u') => (o ++ (feed s' u' cs).1, (feed s' u' cs).2)

/-- **Chunk invariance.** However a stream is cut, feeding its chunks to a waiting scanner gives the
results and the ending of draining it whole. -/
theorem feed_eq_drain {s : σ} {u : List α} (cs : List (List α)) (hwait : m.step s u = .more)
    (hsteady : ∀ s' w, m.Visits s (u ++ cs.flatten) s' w → m.Steady s' w) :
    m.feed s u cs = m.drain s (u ++ cs.flatten) := by
  induction cs generalizing s u with
  | nil => simpa [feed] using (m.drain_of_more hwait).symm
  | cons c cs ih =>
    rw [List.flatten_cons, ← List.append_assoc] at hsteady ⊢
    rw [m.drain_append (u ++ c) cs.flatten hsteady, feed]
    rcases hd : m.drain s (u ++ c) with ⟨o, s' | _⟩
    · rename_i u'
      have hvisits := visits_of_drain cs.flatten hd
      simp only [ih (step_eq_more_of_drain hd) fun s₂ w h => hsteady s₂ w (hvisits.trans h)]
    · rfl

/-! ## The trace of a stream -/

/-- The configurations draining passes through, in order. -/
def trace (s : σ) (u : List α) : List (σ × List α) :=
  match _h : m.step s u with
  | .more => [(s, u)]
  | .fail => [(s, u)]
  | .next s' r _ => (s, u) :: trace s' r
termination_by m.size s u
decreasing_by exact m.size_lt _h

variable {m}

theorem Visits.mem_trace {s s' : σ} {u w : List α} (h : m.Visits s u s' w) :
    (s', w) ∈ m.trace s u := by
  induction h with
  | refl s u =>
    rw [trace]
    split <;> simp
  | step hstep _ ih =>
    rw [trace]
    split <;> simp_all

theorem visits_of_mem_trace {s s' : σ} {u w : List α} (h : (s', w) ∈ m.trace s u) :
    m.Visits s u s' w := by
  induction s, u using m.step_induction with
  | ind s u ih =>
    rw [trace] at h
    split at h
    · obtain ⟨rfl, rfl⟩ : s' = s ∧ w = u := by simpa using h
      exact .refl _ _
    · obtain ⟨rfl, rfl⟩ : s' = s ∧ w = u := by simpa using h
      exact .refl _ _
    · rename_i hstep
      rcases List.mem_cons.mp h with heq | h
      · obtain ⟨rfl, rfl⟩ := Prod.mk.inj heq
        exact .refl _ _
      · exact .step hstep (ih _ _ _ hstep h)

end Scanner

end Resumable
