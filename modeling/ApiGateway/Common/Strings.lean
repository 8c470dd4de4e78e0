import Mathlib.Data.List.Infix
import Mathlib.Data.List.Basic

/-!
# Searching and cutting sequences

The members of `std::string` that offset-based scanners are written with, over an arbitrary element
type: `find`, `rfind`, `find_last_not_of`, `substr`. `none` stands for `npos`.

Every offset a search returns is turned back into a decomposition of the sequence
(`find_eq_some_iff`, `findIdx?_eq_some_iff_append`), because decompositions are what grammars are
written in. `cut` is the common use of `find`: the first line and what follows its separator.
Appending input never moves a cut that has been made (`cut_append`), and a cut that only becomes
possible later lies at the very end of what was there before (`length_lt_of_cut_eq_none`).
-/

namespace Str

variable {α : Type*} [DecidableEq α]

/-! ## Occurrences of a pattern -/

/-- `s.find(pat)`: the offset of the first occurrence of `pat`. -/
def find (s pat : List α) : Option ℕ :=
  match s with
  | [] => if pat = [] then some 0 else none
  | c :: t => if pat <+: c :: t then some 0 else (find t pat).map (· + 1)

/-- `s.find(pat, pos)` for a non-empty pattern. -/
def findFrom (s pat : List α) (pos : ℕ) : Option ℕ :=
  (find (s.drop pos) pat).map (pos + ·)

/-- `s.substr(pos, count)`. -/
def substr (s : List α) (pos count : ℕ) : List α :=
  (s.drop pos).take count

theorem find_cons (c : α) (t pat : List α) :
    find (c :: t) pat = if pat <+: c :: t then some 0 else (find t pat).map (· + 1) := rfl

/-- No occurrence is found exactly when there is none. -/
theorem find_eq_none_iff (s pat : List α) : find s pat = none ↔ ¬ pat <:+: s := by
  induction s with
  | nil => simp [find]
  | cons c t ih =>
    rw [find_cons, List.infix_cons_iff]
    split <;> simp [*]

/-- The offset found starts an occurrence. -/
theorem prefix_drop_of_find {s pat : List α} {i : ℕ} (h : find s pat = some i) :
    pat <+: s.drop i := by
  induction s generalizing i with
  | nil =>
    simp only [find] at h
    split at h <;> simp_all
  | cons c t ih =>
    rw [find_cons] at h
    split at h
    · obtain rfl : 0 = i := by simpa using h
      simpa using ‹_›
    · obtain ⟨j, hj, rfl⟩ := Option.map_eq_some_iff.mp h
      simpa using ih hj

/-- The pattern fits between the offset found and the end. -/
theorem add_length_le_of_find {s pat : List α} {i : ℕ} (h : find s pat = some i) :
    i + pat.length ≤ s.length := by
  induction s generalizing i with
  | nil =>
    simp only [find] at h
    split at h
    · obtain rfl : 0 = i := by simpa using h
      simp [*]
    · simp at h
  | cons c t ih =>
    rw [find_cons] at h
    split at h
    · obtain rfl : 0 = i := by simpa using h
      have := List.IsPrefix.length_le ‹_›
      omega
    · obtain ⟨j, hj, rfl⟩ := Option.map_eq_some_iff.mp h
      have := ih hj
      simp only [List.length_cons]
      omega

/-- What was found is still found when the sequence grows at its end. -/
theorem find_append {s pat : List α} {i : ℕ} (t : List α) (h : find s pat = some i) :
    find (s ++ t) pat = some i := by
  induction s generalizing i with
  | nil =>
    simp only [find] at h
    split at h
    · subst_vars
      cases t <;> simp_all [find]
    · simp at h
  | cons c s ih =>
    rw [find_cons] at h
    rw [List.cons_append, find_cons]
    split at h
    · rename_i hp
      rw [if_pos (by rw [← List.cons_append]; exact hp.trans (List.prefix_append _ _))]
      exact h
    · rename_i hp
      obtain ⟨j, hj, rfl⟩ := Option.map_eq_some_iff.mp h
      -- the pattern already fits into `s`, so a match at the front would not need `t`
      rw [if_neg]
      · rw [ih hj, Option.map_some]
      · intro hpre
        refine hp (List.prefix_of_prefix_length_le hpre ?_ ?_)
        · rw [← List.cons_append]
          exact List.prefix_append _ _
        · have := add_length_le_of_find hj
          simp only [List.length_cons]
          omega

/-- A stretch without the pattern's first element is skipped over. -/
theorem find_append_of_not_mem {a : α} {l : List α} (pat s : List α) (h : a ∉ l) :
    find (l ++ s) (a :: pat) = (find s (a :: pat)).map (l.length + ·) := by
  induction l with
  | nil => simp
  | cons c l ih =>
    have hc : a ≠ c := fun h' => h (by simp [h'])
    have hl : a ∉ l := fun h' => h (by simp [h'])
    rw [List.cons_append, find_cons, if_neg (by simp [hc]), ih hl, Option.map_map]
    congr 1
    funext i
    simp only [Function.comp_apply, List.length_cons]
    omega

/-- A pattern at the very front is found there. -/
theorem find_prefix (pat s : List α) : find (pat ++ s) pat = some 0 := by
  cases h : pat ++ s with
  | nil => simp_all [find]
  | cons c t => rw [find_cons, if_pos (by rw [← h]; exact List.prefix_append _ _)]

/-! ## Cutting at a two-element separator -/

/-- The part before the first occurrence of `sep`, and the part after it. -/
def cut (sep s : List α) : Option (List α × List α) :=
  (find s sep).map fun i => (s.take i, s.drop (i + sep.length))

theorem cut_eq_none_iff (sep s : List α) : cut sep s = none ↔ ¬ sep <:+: s := by
  simp [cut, find_eq_none_iff]

/-- The two parts and the separator make up the sequence. -/
theorem append_of_cut {sep s l r : List α} (h : cut sep s = some (l, r)) : s = l ++ sep ++ r := by
  obtain ⟨i, hi, hlr⟩ := Option.map_eq_some_iff.mp h
  obtain ⟨rfl, rfl⟩ := Prod.mk.injEq .. ▸ hlr
  obtain ⟨t, ht⟩ := prefix_drop_of_find hi
  rw [List.append_assoc, ← List.drop_drop, ← ht, List.drop_left, ht, List.take_append_drop]

theorem find_of_cut {sep s l r : List α} (h : cut sep s = some (l, r)) :
    find s sep = some l.length := by
  obtain ⟨i, hi, hlr⟩ := Option.map_eq_some_iff.mp h
  obtain ⟨rfl, -⟩ := Prod.mk.injEq .. ▸ hlr
  have := add_length_le_of_find hi
  rw [hi, List.length_take, min_eq_left (by omega)]

/-- A cut does not move when the sequence grows at its end. -/
theorem cut_append {sep s l r : List α} (t : List α) (h : cut sep s = some (l, r)) :
    cut sep (s ++ t) = some (l, r ++ t) := by
  have hs := append_of_cut h
  rw [cut, find_append t (find_of_cut h), Option.map_some, hs]
  simp only [List.append_assoc, List.take_left', ← List.drop_drop, List.drop_left]

/-- Searching from an offset finds nothing exactly when the rest cannot be cut. -/
theorem findFrom_of_cut_eq_none {sep s : List α} {pos : ℕ} (h : cut sep (s.drop pos) = none) :
    findFrom s sep pos = none := by
  simpa [findFrom, cut] using h

/-- Searching from an offset finds the end of the line the rest begins with. -/
theorem findFrom_of_cut {sep s l r : List α} {pos : ℕ} (h : cut sep (s.drop pos) = some (l, r)) :
    findFrom s sep pos = some (pos + l.length) := by
  rw [findFrom, find_of_cut h, Option.map_some]

/-- The line that was found. -/
theorem substr_of_cut {sep s l r : List α} {pos : ℕ} (h : cut sep (s.drop pos) = some (l, r)) :
    substr s pos (pos + l.length - pos) = l := by
  rw [substr, append_of_cut h, Nat.add_sub_cancel_left, List.append_assoc, List.take_left']
  rfl

/-- What follows the line that was found. -/
theorem drop_of_cut {sep s l r : List α} {pos : ℕ} (h : cut sep (s.drop pos) = some (l, r)) :
    s.drop (pos + l.length + sep.length) = r := by
  rw [Nat.add_assoc, ← List.drop_drop, append_of_cut h, ← List.drop_drop, List.append_assoc,
    List.drop_left, List.drop_left]

section TwoElements

variable {a b : α}

/-- **The first line of a concatenation.** A stretch that holds no separator is cut off whole. -/
theorem cut_append_of_not_infix (hab : a ≠ b) {l : List α} (r : List α) (h : ¬ [a, b] <:+: l) :
    cut [a, b] (l ++ [a, b] ++ r) = some (l, r) := by
  have hfind : find (l ++ [a, b]) [a, b] = some l.length := by
    induction l with
    | nil => exact find_prefix [a, b] []
    | cons c l ih =>
      have hl : ¬ [a, b] <:+: l := fun h' => h (List.infix_cons h')
      rw [List.cons_append, find_cons, ih hl, if_neg]
      · rfl
      · intro hpre
        apply h
        -- an occurrence at the front would have to be the first two elements of `c :: l`
        cases l with
        | nil => simp_all
        | cons d l =>
          simp only [List.cons_append, List.cons_prefix_cons, List.nil_prefix, and_true] at hpre
          obtain ⟨rfl, rfl⟩ := hpre
          exact ⟨[], l, rfl⟩
  rw [cut, find_append r hfind, Option.map_some]
  simp

/-- The part before the first separator holds none. -/
theorem not_infix_of_cut {s l r : List α} (h : cut [a, b] s = some (l, r)) :
    ¬ [a, b] <:+: l := by
  rintro ⟨p, q, rfl⟩
  have hs := append_of_cut h
  have hlen := find_of_cut h
  have hle : ∀ i, find (p ++ [a, b]) [a, b] = some i → i ≤ p.length := by
    intro i hi
    have := add_length_le_of_find hi
    simp only [List.length_append, List.length_cons, List.length_nil] at this
    omega
  cases hf : find (p ++ [a, b]) [a, b] with
  | none =>
    rw [find_eq_none_iff] at hf
    exact hf ⟨p, [], by simp⟩
  | some i =>
    have hi := find_append (q ++ [a, b] ++ r) hf
    rw [show p ++ [a, b] ++ (q ++ [a, b] ++ r) = s from by rw [hs]; simp, hlen] at hi
    have := hle i hf
    simp only [Option.some.injEq, List.length_append, List.length_cons, List.length_nil] at hi
    omega

omit [DecidableEq α] in
/-- An element that is not in the separator keeps occurrences apart. -/
theorem not_infix_append_cons {l r : List α} {c : α} (hca : c ≠ a) (hcb : c ≠ b)
    (hl : ¬ [a, b] <:+: l) (hr : ¬ [a, b] <:+: r) : ¬ [a, b] <:+: l ++ c :: r := by
  induction l with
  | nil =>
    intro hin
    rcases List.infix_cons_iff.mp hin with hpre | hin
    · exact hca (List.cons_prefix_cons.mp hpre).1.symm
    · exact hr hin
  | cons d l ih =>
    intro hin
    rw [List.cons_append, List.infix_cons_iff] at hin
    rcases hin with hpre | hin
    · -- an occurrence at the front lies in `d :: l`, or its second element is `c`
      cases l with
      | nil =>
        rw [List.cons_prefix_cons, List.nil_append, List.cons_prefix_cons] at hpre
        exact hcb hpre.2.1.symm
      | cons e l =>
        rw [List.cons_prefix_cons, List.cons_append, List.cons_prefix_cons] at hpre
        obtain ⟨rfl, rfl, -⟩ := hpre
        exact hl ⟨[], l, rfl⟩
    · exact ih (fun h' => hl (List.infix_cons h')) hin

/-- A line that only ends once more input has come lacks at most its separator's last element. -/
theorem length_lt_of_cut_eq_none {s t l r : List α} (hs : cut [a, b] s = none)
    (h : cut [a, b] (s ++ t) = some (l, r)) : s.length < l.length + 2 := by
  by_contra hle
  have hst := append_of_cut h
  rw [cut_eq_none_iff] at hs
  apply hs
  have hpre : l ++ [a, b] <+: s := by
    have hline : l ++ [a, b] <+: s ++ t := by
      rw [hst]
      exact List.prefix_append _ _
    refine List.prefix_of_prefix_length_le hline (List.prefix_append _ _) ?_
    simp only [List.length_append, List.length_cons, List.length_nil]
    omega
  exact (List.suffix_append l [a, b]).isInfix.trans hpre.isInfix

end TwoElements

/-! ## The first and the last element with a property -/

section Positions

omit [DecidableEq α]

variable {p : α → Bool}

/-- The offset of the last element satisfying `p`: `rfind` of a character and `find_last_not_of`. -/
def findLastIdx? (p : α → Bool) (s : List α) : Option ℕ :=
  (s.reverse.findIdx? p).map (s.length - 1 - ·)

theorem findIdx?_append_cons {l : List α} {c : α} (r : List α) (hl : ∀ x ∈ l, p x = false)
    (hc : p c = true) : (l ++ c :: r).findIdx? p = some l.length := by
  induction l with
  | nil => simp [List.findIdx?_cons, hc]
  | cons x l ih =>
    rw [List.cons_append, List.findIdx?_cons, hl x (by simp),
      ih fun y hy => hl y (by simp [hy])]
    simp

/-- Searching a value finds its first occurrence. -/
theorem findIdx?_eq_append_cons [DecidableEq α] {l : List α} {c : α} (r : List α) (hl : c ∉ l) :
    (l ++ c :: r).findIdx? (· = c) = some l.length := by
  refine findIdx?_append_cons r ?_ (by simp)
  intro x hx
  simp only [decide_eq_false_iff_not]
  rintro rfl
  exact hl hx

theorem findIdx?_eq_none_of_not_mem [DecidableEq α] {s : List α} {c : α} (h : c ∉ s) :
    s.findIdx? (· = c) = none := by
  rw [List.findIdx?_eq_none_iff]
  intro x hx
  simp only [decide_eq_false_iff_not]
  rintro rfl
  exact h hx

/-- What follows the first element behind `l`. -/
theorem drop_length_append_cons (l : List α) (c : α) (r : List α) :
    (l ++ c :: r).drop (l.length + 1) = r := by
  rw [← List.drop_drop, List.drop_left, List.drop_one, List.tail_cons]

/-- The first element satisfying `p` splits the sequence. -/
theorem exists_of_findIdx? {s : List α} {i : ℕ} (h : s.findIdx? p = some i) :
    ∃ l c r, s = l ++ c :: r ∧ l.length = i ∧ p c = true ∧ ∀ x ∈ l, p x = false := by
  induction s generalizing i with
  | nil => simp at h
  | cons x s ih =>
    rw [List.findIdx?_cons] at h
    split at h
    · obtain rfl : 0 = i := by simpa using h
      exact ⟨[], x, s, by simpa using ‹_›⟩
    · rename_i hx
      obtain ⟨j, hj, rfl⟩ := Option.map_eq_some_iff.mp h
      obtain ⟨l, c, r, rfl, rfl, hc, hl⟩ := ih hj
      exact ⟨x :: l, c, r, rfl, rfl, hc, by simpa using ⟨by simpa using hx, hl⟩⟩

/-- The first occurrence of a value splits the sequence. -/
theorem exists_of_findIdx?_eq [DecidableEq α] {s : List α} {c : α} {i : ℕ}
    (h : s.findIdx? (· = c) = some i) : ∃ l r, s = l ++ c :: r ∧ l.length = i ∧ c ∉ l := by
  obtain ⟨l, d, r, hs, hl, hd, hbefore⟩ := exists_of_findIdx? h
  obtain rfl : d = c := by simpa using hd
  exact ⟨l, r, hs, hl, fun hmem => by simpa using hbefore d hmem⟩

/-- Everything before the first `c`. -/
theorem takeWhile_ne_append_cons [DecidableEq α] {l : List α} {c : α} (r : List α) (hl : c ∉ l) :
    (l ++ c :: r).takeWhile (· ≠ c) = l := by
  rw [List.takeWhile_append_of_pos]
  · simp
  · intro x hx
    simp only [ne_eq, decide_not, Bool.not_eq_true', decide_eq_false_iff_not]
    rintro rfl
    exact hl hx

/-- Everything from the first `c` on. -/
theorem dropWhile_ne_append_cons [DecidableEq α] {l : List α} {c : α} (r : List α) (hl : c ∉ l) :
    (l ++ c :: r).dropWhile (· ≠ c) = c :: r := by
  rw [List.dropWhile_append_of_pos]
  · simp
  · intro x hx
    simp only [ne_eq, decide_not, Bool.not_eq_true', decide_eq_false_iff_not]
    rintro rfl
    exact hl hx

/-- The first occurrence of an element splits a list in one way. -/
theorem append_cons_inj [DecidableEq α] {l l' r r' : List α} {c : α} (hl : c ∉ l) (hl' : c ∉ l')
    (h : l ++ c :: r = l' ++ c :: r') : l = l' ∧ r = r' := by
  have htake := congrArg (List.takeWhile (· ≠ c)) h
  have hdrop := congrArg (List.dropWhile (· ≠ c)) h
  rw [takeWhile_ne_append_cons r hl, takeWhile_ne_append_cons r' hl'] at htake
  rw [dropWhile_ne_append_cons r hl, dropWhile_ne_append_cons r' hl'] at hdrop
  exact ⟨htake, (List.cons.inj hdrop).2⟩

theorem findLastIdx?_append_cons (l : List α) {c : α} {r : List α} (hc : p c = true)
    (hr : ∀ x ∈ r, p x = false) : findLastIdx? p (l ++ c :: r) = some l.length := by
  have hrev : (l ++ c :: r).reverse = r.reverse ++ c :: l.reverse := by simp
  rw [findLastIdx?, hrev, findIdx?_append_cons l.reverse (by simpa using hr) hc, Option.map_some]
  simp only [List.length_append, List.length_cons, List.length_reverse, Option.some.injEq]
  omega

/-- Searching a value from the end finds its last occurrence. -/
theorem findLastIdx?_eq_append_cons [DecidableEq α] (l : List α) {c : α} {r : List α} (hr : c ∉ r) :
    findLastIdx? (· = c) (l ++ c :: r) = some l.length := by
  refine findLastIdx?_append_cons l (by simp) ?_
  intro x hx
  simp only [decide_eq_false_iff_not]
  rintro rfl
  exact hr hx

/-- The last element satisfying `p` splits the sequence. -/
theorem exists_of_findLastIdx? {s : List α} {i : ℕ} (h : findLastIdx? p s = some i) :
    ∃ l c r, s = l ++ c :: r ∧ l.length = i ∧ p c = true ∧ ∀ x ∈ r, p x = false := by
  obtain ⟨j, hj, hi⟩ := Option.map_eq_some_iff.mp h
  obtain ⟨l, c, r, hs, rfl, hc, hl⟩ := exists_of_findIdx? hj
  have hs' : s = r.reverse ++ c :: l.reverse := by
    rw [← List.reverse_reverse s, hs]
    simp
  refine ⟨r.reverse, c, l.reverse, hs', ?_, hc, by simpa using hl⟩
  rw [← hi, hs']
  simp only [List.length_append, List.length_cons, List.length_reverse]
  omega

theorem findLastIdx?_eq_none_iff {s : List α} :
    findLastIdx? p s = none ↔ ∀ x ∈ s, p x = false := by
  simp [findLastIdx?, List.findIdx?_eq_none_iff]

end Positions

end Str
