import ApiGateway.Common.Strings
import Mathlib.Data.List.TakeWhile

/-!
# The lines of a sequence

A sequence cut at every occurrence of a separator of two different elements. A scanner that looks for one
separator after the other walks along `lines`, and what a message looks like to its reader is said with
them: the first line, and the lines of its section up to the first empty one (`sectionLines`).

A separator always starts a new line, whatever stands before it (`lines_append`), since no occurrence can
overlap another one.

Lines that are each ended by one element, as a loop over `std::getline` sees them, are `getlines`; the end
of the last one may be missing.
-/

namespace Str

variable {α : Type*} [DecidableEq α]

/-- The lines of a sequence, cut at every `a, b`. -/
def lines (a b : α) : List α → List (List α)
  | [] => [[]]
  | [c] => [[c]]
  | c :: d :: t =>
    if c = a ∧ d = b then [] :: lines a b t else (lines a b (d :: t)).modifyHead (c :: ·)

/-- The lines behind the first one, up to the first empty line. -/
def sectionLines (a b : α) (s : List α) : List (List α) := (lines a b s).tail.takeWhile (· ≠ [])

variable {a b : α}

theorem lines_ne_nil (s : List α) : lines a b s ≠ [] := by
  induction s using lines.induct (a := a) (b := b) with
  | case1 => simp [lines]
  | case2 c => simp [lines]
  | case3 c d t hsep ih => simp [lines, hsep]
  | case4 c d t hsep ih => simpa [lines, hsep] using ih

theorem lines_sep (t : List α) : lines a b (a :: b :: t) = [] :: lines a b t := by
  rw [lines, if_pos ⟨rfl, rfl⟩]

theorem lines_cons {c d : α} (t : List α) (hsep : ¬ (c = a ∧ d = b)) :
    lines a b (c :: d :: t) = (lines a b (d :: t)).modifyHead (c :: ·) := by
  rw [lines, if_neg hsep]

/-- **A separator ends a line**, and another one begins. -/
theorem lines_append (hab : a ≠ b) (s t : List α) :
    lines a b (s ++ a :: b :: t) = lines a b s ++ lines a b t := by
  induction s using lines.induct (a := a) (b := b) with
  | case1 => exact lines_sep t
  | case2 c =>
    rw [List.singleton_append, lines_cons _ fun h => hab h.2, lines_sep]
    rfl
  | case3 c d s hsep ih =>
    obtain ⟨rfl, rfl⟩ := hsep
    rw [List.cons_append, List.cons_append, lines_sep, lines_sep, ih, List.cons_append]
  | case4 c d s hsep ih =>
    rw [List.cons_append, List.cons_append, lines_cons _ hsep, lines_cons _ hsep, ← List.cons_append,
      ih]
    cases hs : lines a b (d :: s) with
    | nil => exact absurd hs (lines_ne_nil _)
    | cons l ls => rfl

/-- A sequence without a separator is one line. -/
theorem lines_unbroken {l : List α} (h : ¬ [a, b] <:+: l) : lines a b l = [l] := by
  induction l using lines.induct (a := a) (b := b) with
  | case1 => rfl
  | case2 c => rfl
  | case3 c d t hsep ih =>
    obtain ⟨rfl, rfl⟩ := hsep
    exact absurd ⟨[], t, rfl⟩ h
  | case4 c d t hsep ih =>
    rw [lines_cons t hsep, ih fun h' => h (List.infix_cons h')]
    rfl

/-- What stands before the first line does not matter to the others. -/
theorem tail_lines_append {p : List α} (h : a ∉ p) (s : List α) :
    (lines a b (p ++ s)).tail = (lines a b s).tail := by
  induction p with
  | nil => rfl
  | cons c p ih =>
    obtain ⟨hc, hp⟩ := List.ne_and_not_mem_of_not_mem_cons h
    rw [← ih hp, List.cons_append]
    cases hs : p ++ s with
    | nil => rfl
    | cons d t =>
      rw [lines_cons t fun hsep => hc hsep.1.symm]
      cases lines a b (d :: t) <;> rfl

/-- The lines, each with its separator, are the sequence with one at its end. -/
theorem flatMap_lines (s : List α) : (lines a b s).flatMap (· ++ [a, b]) = s ++ [a, b] := by
  induction s using lines.induct (a := a) (b := b) with
  | case1 => rfl
  | case2 c => rfl
  | case3 c d t hsep ih =>
    obtain ⟨rfl, rfl⟩ := hsep
    rw [lines_sep, List.flatMap_cons, ih]
    rfl
  | case4 c d t hsep ih =>
    rw [lines_cons t hsep, List.cons_append, ← ih]
    cases hs : lines a b (d :: t) with
    | nil => exact absurd hs (lines_ne_nil _)
    | cons l ls => rfl

/-- The first line of a sequence starts with its first element, unless it is empty. -/
theorem eq_nil_or_of_lines_eq_cons {d : α} {t l : List α} {ls : List (List α)}
    (h : lines a b (d :: t) = l :: ls) : l = [] ∨ ∃ l', l = d :: l' := by
  cases t with
  | nil => exact .inr ⟨[], (List.cons.inj h).1.symm⟩
  | cons e t =>
    by_cases hsep : d = a ∧ e = b
    · rw [lines, if_pos hsep] at h
      exact .inl (List.cons.inj h).1.symm
    · rw [lines_cons t hsep] at h
      cases hs : lines a b (e :: t) with
      | nil => exact absurd hs (lines_ne_nil _)
      | cons l' ls' =>
        rw [hs] at h
        exact .inr ⟨l', (List.cons.inj h).1.symm⟩

/-- No line holds a separator. -/
theorem not_infix_of_mem_lines {s l : List α} (h : l ∈ lines a b s) : ¬ [a, b] <:+: l := by
  induction s using lines.induct (a := a) (b := b) generalizing l with
  | case1 =>
    obtain rfl := List.mem_singleton.mp h
    exact fun hin => absurd hin.length_le (by simp)
  | case2 c =>
    obtain rfl := List.mem_singleton.mp h
    exact fun hin => absurd hin.length_le (by simp)
  | case3 c d t hsep ih =>
    rw [lines, if_pos hsep] at h
    rcases List.mem_cons.mp h with rfl | h
    · exact fun hin => absurd hin.length_le (by simp)
    · exact ih h
  | case4 c d t hsep ih =>
    rw [lines_cons t hsep] at h
    cases hs : lines a b (d :: t) with
    | nil => exact absurd hs (lines_ne_nil _)
    | cons l' ls =>
      rw [hs] at h ih
      rcases List.mem_cons.mp h with rfl | h
      · -- an occurrence at the front needs `c = a`, and `d = b` behind it
        intro hin
        rcases List.infix_cons_iff.mp hin with hpre | hin
        · rcases eq_nil_or_of_lines_eq_cons hs with rfl | ⟨l'', rfl⟩
          · exact absurd hpre.length_le (by simp)
          · simp only [List.cons_prefix_cons, List.nil_prefix, and_true] at hpre
            exact hsep ⟨hpre.1.symm, hpre.2.symm⟩
        · exact ih List.mem_cons_self hin
      · exact ih (List.mem_cons_of_mem _ h)

/-! ## Lines with an end -/

/-- What a loop over `std::getline` gives: a line ends at each `a`, and at the end if anything is left. -/
def getlines (a : α) : List α → List (List α)
  | [] => []
  | c :: t =>
    if c = a then [] :: getlines a t
    else
      match getlines a t with
      | [] => [[c]]
      | l :: ls => (c :: l) :: ls

theorem getlines_append_cons {l : List α} (h : a ∉ l) (t : List α) :
    getlines a (l ++ a :: t) = l :: getlines a t := by
  induction l with
  | nil => rw [List.nil_append, getlines, if_pos rfl]
  | cons c l ih =>
    rw [List.mem_cons, not_or] at h
    rw [List.cons_append, getlines, if_neg (Ne.symm h.1), ih h.2]

theorem getlines_flatMap {ls : List (List α)} (h : ∀ l ∈ ls, a ∉ l) :
    getlines a (ls.flatMap (· ++ [a])) = ls := by
  induction ls with
  | nil => rfl
  | cons l ls ih =>
    rw [List.forall_mem_cons] at h
    rw [List.flatMap_cons, List.append_assoc, List.singleton_append, getlines_append_cons h.1, ih h.2]

/-- The end of the last line can be left out, unless that line is empty. -/
theorem getlines_concat (s : List α) :
    getlines a (s ++ [a]) = getlines a s ∨ getlines a (s ++ [a]) = getlines a s ++ [[]] := by
  induction s with
  | nil => exact .inr (getlines_append_cons List.not_mem_nil [])
  | cons c s ih =>
    rw [List.cons_append, getlines, getlines]
    by_cases hc : c = a
    · rw [if_pos hc, if_pos hc]
      exact ih.imp (congrArg _) (congrArg _)
    · rw [if_neg hc, if_neg hc]
      cases hs : getlines a s with
      | nil =>
        rcases ih with ih | ih
        · rw [ih, hs]
          exact .inl rfl
        · rw [ih, hs]
          exact .inl rfl
      | cons l ls =>
        rcases ih with ih | ih
        · rw [ih, hs]
          exact .inl rfl
        · rw [ih, hs]
          exact .inr rfl

end Str
