import ApiGateway.Common.Interleaving
import Mathlib.Algebra.BigOperators.Group.Finset.Basic
import Mathlib.Algebra.Order.BigOperators.Group.Finset
import Mathlib.Tactic.Linarith

/-!
# Weights over interleaved logs

Every entry of a log has a weight, and the weights are added up. In a log of several threads the total is the sum
of the threads' own totals, however they are interleaved (`total_eq_sum`). A thread repeats procedures, each of
which leaves a trace; if every beginning of a trace has a bounded weight, and a whole trace adds nothing, then the
thread's total is bounded at any moment (`total_le_of_traces`), and that of all threads by the sum of the bounds
(`total_le_of_threads`).
-/

namespace Tally

open Interleaving

variable {ι α : Type*}

/-- The sum of the weights. -/
def total (f : α → ℤ) : List α → ℤ
  | [] => 0
  | a :: l => f a + total f l

variable {f : α → ℤ}

@[simp] theorem total_nil : total f [] = 0 := rfl

@[simp] theorem total_cons (a : α) (l : List α) : total f (a :: l) = f a + total f l := rfl

@[simp] theorem total_append (l l' : List α) : total f (l ++ l') = total f l + total f l' := by
  induction l with
  | nil => simp
  | cons a l ih => rw [List.cons_append, total_cons, ih, total_cons, add_assoc]

theorem total_neg (l : List α) : total (fun a => -f a) l = -total f l := by
  induction l with
  | nil => rfl
  | cons a l ih => rw [total_cons, total_cons, ih, neg_add]

theorem total_sub (g : α → ℤ) (l : List α) : total (fun a => f a - g a) l = total f l - total g l := by
  induction l with
  | nil => rfl
  | cons a l ih =>
    rw [total_cons, total_cons, total_cons, ih]
    omega

/-- Counting is a weight of one. -/
theorem total_indicator (p : α → Bool) (l : List α) :
    total (fun a => if p a then 1 else 0) l = l.countP p := by
  induction l with
  | nil => rfl
  | cons a l ih =>
    rw [total_cons, ih, List.countP_cons]
    by_cases h : p a = true
    · simp [h, add_comm]
    · simp [h]

/-- The total of a sequence of traces. -/
theorem total_flatMap {β : Type*} (g : β → List α) (l : List β) :
    total f (l.flatMap g) = total (fun b => total f (g b)) l := by
  induction l with
  | nil => rfl
  | cons b l ih => rw [List.flatMap_cons, total_append, ih, total_cons]

theorem total_congr {g : α → ℤ} {l : List α} (h : ∀ a ∈ l, f a = g a) : total f l = total g l := by
  induction l with
  | nil => rfl
  | cons a l ih =>
    obtain ⟨ha, hl⟩ := List.forall_mem_cons.mp h
    rw [total_cons, total_cons, ha, ih hl]

theorem total_eq_zero {l : List α} (h : ∀ a ∈ l, f a = 0) : total f l = 0 := by
  induction l with
  | nil => rfl
  | cons a l ih =>
    obtain ⟨ha, hl⟩ := List.forall_mem_cons.mp h
    rw [total_cons, ha, ih hl, add_zero]

theorem total_nonneg {l : List α} (h : ∀ a ∈ l, 0 ≤ f a) : 0 ≤ total f l := by
  induction l with
  | nil => exact le_rfl
  | cons a l ih =>
    obtain ⟨ha, hl⟩ := List.forall_mem_cons.mp h
    exact add_nonneg ha (ih hl)

/-- **The order does not matter.** -/
theorem total_eq_sum [DecidableEq ι] {threads : Finset ι} {log : List (ι × α)}
    (h : ∀ x ∈ log, x.1 ∈ threads) :
    total f (log.map Prod.snd) = ∑ i ∈ threads, total f (own i log) := by
  induction log with
  | nil => simp [own]
  | cons x log ih =>
    obtain ⟨hx, hlog⟩ := List.forall_mem_cons.mp h
    have hown : ∀ i, total f (own i (x :: log)) = (if x.1 = i then f x.2 else 0) + total f (own i log) := by
      intro i
      rw [own_cons]
      split <;> simp
    rw [List.map_cons, total_cons, ih hlog, Finset.sum_congr rfl fun i _ => hown i, Finset.sum_add_distrib,
      Finset.sum_ite_eq, if_pos hx]

/-! ## At any moment -/

/-- The beginnings of a trace that pays first: each has been paid for, if the whole has. -/
theorem total_prefix_le_zero {a : α} {l p : List α} (hrest : ∀ x ∈ l, 0 ≤ f x)
    (hwhole : total f (a :: l) ≤ 0) (hp : p <+: a :: l) : total f p ≤ 0 := by
  obtain ⟨rest, hsplit⟩ := hp
  cases p with
  | nil => exact le_rfl
  | cons b p =>
    obtain ⟨rfl, rfl⟩ : b = a ∧ p ++ rest = l := by simpa using hsplit
    have hnonneg : 0 ≤ total f rest := total_nonneg fun x hx => hrest x (List.mem_append_right p hx)
    rw [total_cons, total_append] at hwhole
    rw [total_cons]
    linarith

/-- The beginnings of a trace that only pays back after its first entry. -/
theorem total_prefix_le_head {a : α} {l p : List α} (ha : 0 ≤ f a) (hrest : ∀ x ∈ l, f x ≤ 0)
    (hp : p <+: a :: l) : total f p ≤ f a := by
  obtain ⟨rest, hsplit⟩ := hp
  cases p with
  | nil => exact ha
  | cons b p =>
    obtain ⟨rfl, rfl⟩ : b = a ∧ p ++ rest = l := by simpa using hsplit
    have hneg : 0 ≤ total (fun x => -f x) p :=
      total_nonneg fun x hx => neg_nonneg.mpr (hrest x (List.mem_append_left rest hx))
    rw [total_neg] at hneg
    rw [total_cons]
    linarith

/-- **A thread that repeats procedures.** -/
theorem total_le_of_traces {β : Type*} {trace : β → List α} {procedures : List β} {b : ℤ} (hb : 0 ≤ b)
    (hwhole : ∀ x ∈ procedures, total f (trace x) ≤ 0)
    (hpart : ∀ x ∈ procedures, ∀ p, p <+: trace x → total f p ≤ b)
    {p : List α} (hp : p <+: procedures.flatMap trace) : total f p ≤ b := by
  induction procedures generalizing p with
  | nil =>
    obtain rfl : p = [] := List.prefix_nil.mp hp
    exact hb
  | cons x procedures ih =>
    obtain ⟨hx, hwhole⟩ := List.forall_mem_cons.mp hwhole
    obtain ⟨hpx, hpart⟩ := List.forall_mem_cons.mp hpart
    rw [List.flatMap_cons] at hp
    -- the thread is in the first procedure, or has finished it
    rcases List.prefix_or_prefix_of_prefix hp (List.prefix_append (trace x) _) with hin | ⟨p', rfl⟩
    · exact hpx p hin
    · have hrest := ih hwhole hpart ((List.prefix_append_right_inj (trace x)).mp hp)
      rw [total_append]
      linarith

/-- **All threads at any moment.** -/
theorem total_le_of_threads [DecidableEq ι] {threads : Finset ι} {log : List (ι × α)} {b : ℤ}
    (h : ∀ x ∈ log, x.1 ∈ threads) (hown : ∀ i ∈ threads, total f (own i log) ≤ b) :
    total f (log.map Prod.snd) ≤ threads.card * b := by
  rw [total_eq_sum h, ← nsmul_eq_mul]
  exact Finset.sum_le_card_nsmul _ _ _ hown

end Tally
