import ApiGateway.Common.Strings
import Mathlib.Data.List.DropRight

/-!
# Stripping both ends of a sequence

`Stripped front back s t` says that `t` is `s` without its longest beginning in the set `front` and then
without its longest end in the set `back`. There is exactly one such `t`, and `strip` computes it
(`stripped_iff`).

Scanners strip with two searches, `find_first_not_of` the one set and `find_last_not_of` the other, and cut out
what lies between the two offsets. If `front` is a part of `back`, the offsets are in order and `strip` is cut
out, provided that both searches find something (`substr_eq_strip`). Only if the sets are equal does the second
one find something whenever the first one does.
-/

namespace Str

variable {α : Type*}

/-! ## The longest beginning and the longest end -/

/-- `l` is the longest beginning of `s` with elements of `set` only. -/
structure LongestPrefix (set l s : List α) : Prop where
  start : l <+: s
  subset : l ⊆ set
  longest : ∀ l', l' <+: s → l' ⊆ set → l' <+: l

/-- `r` is the longest end of `s` with elements of `set` only. -/
structure LongestSuffix (set r s : List α) : Prop where
  stop : r <:+ s
  subset : r ⊆ set
  longest : ∀ r', r' <:+ s → r' ⊆ set → r' <:+ r

/-- `t` is `s` without its longest beginning in `front`, and then without its longest end in `back`. -/
def Stripped (front back s t : List α) : Prop :=
  ∃ l r, s = l ++ (t ++ r) ∧ LongestPrefix front l s ∧ LongestSuffix back r (t ++ r)

theorem LongestPrefix.unique {set l l' s : List α} (h : LongestPrefix set l s)
    (h' : LongestPrefix set l' s) : l = l' :=
  List.infix_antisymm (h'.longest l h.start h.subset).isInfix (h.longest l' h'.start h'.subset).isInfix

theorem LongestSuffix.unique {set r r' s : List α} (h : LongestSuffix set r s)
    (h' : LongestSuffix set r' s) : r = r' :=
  List.infix_antisymm (h'.longest r h.stop h.subset).isInfix (h.longest r' h'.stop h'.subset).isInfix

theorem LongestPrefix.reverse {set l s : List α} (h : LongestPrefix set l s) :
    LongestSuffix set l.reverse s.reverse where
  stop := List.reverse_suffix.mpr h.start
  subset := List.reverse_subset.mpr h.subset
  longest r' hr' hset := by
    have hle := h.longest r'.reverse (by rwa [← List.reverse_suffix, List.reverse_reverse])
      (List.reverse_subset.mpr hset)
    rwa [← List.reverse_suffix, List.reverse_reverse] at hle

section Strip

variable [DecidableEq α] {front back : List α}

theorem longestPrefix_takeWhile (set s : List α) : LongestPrefix set (s.takeWhile (· ∈ set)) s where
  start := List.takeWhile_prefix _
  subset x hx := by simpa using List.mem_takeWhile_imp hx
  longest l' hl' hset := by
    obtain ⟨u, rfl⟩ := hl'
    rw [List.takeWhile_append_of_pos fun x hx => decide_eq_true (hset hx)]
    exact List.prefix_append _ _

theorem longestSuffix_rtakeWhile (set s : List α) :
    LongestSuffix set (s.rtakeWhile (· ∈ set)) s := by
  have h := (longestPrefix_takeWhile set s.reverse).reverse
  rwa [List.reverse_reverse] at h

/-! ## `strip` -/

/-- Drop the beginning in `front`, then the end in `back`. -/
def strip (front back s : List α) : List α :=
  (s.dropWhile (· ∈ front)).rdropWhile (· ∈ back)

/-- The parts that are dropped. -/
theorem append_strip (front back s : List α) :
    s = s.takeWhile (· ∈ front) ++
      (strip front back s ++ (s.dropWhile (· ∈ front)).rtakeWhile (· ∈ back)) := by
  rw [strip, List.rdropWhile_append_rtakeWhile, List.takeWhile_append_dropWhile]

/-- **`strip` computes what is left**, and nothing else is. -/
theorem stripped_iff (front back s t : List α) : Stripped front back s t ↔ t = strip front back s := by
  have hrest : strip front back s ++ (s.dropWhile (· ∈ front)).rtakeWhile (· ∈ back)
      = s.dropWhile (· ∈ front) := List.rdropWhile_append_rtakeWhile
  constructor
  · rintro ⟨l, r, hsplit, hl, hr⟩
    obtain rfl := hl.unique (longestPrefix_takeWhile front s)
    have htail : t ++ r = s.dropWhile (· ∈ front) :=
      List.append_cancel_left (hsplit.symm.trans List.takeWhile_append_dropWhile.symm)
    rw [htail] at hr
    obtain rfl := hr.unique (longestSuffix_rtakeWhile back _)
    exact List.append_cancel_right (htail.trans hrest.symm)
  · rintro rfl
    refine ⟨_, _, append_strip front back s, longestPrefix_takeWhile front s, ?_⟩
    rw [hrest]
    exact longestSuffix_rtakeWhile back _

/-- Nothing is left of a sequence with elements of `back` only. -/
theorem strip_eq_nil {s : List α} (h : s ⊆ back) : strip front back s = [] := by
  rw [strip, List.rdropWhile_eq_nil_iff]
  intro x hx
  simpa using h ((List.dropWhile_suffix _).subset hx)

theorem getLast?_strip {s : List α} {c : α} (h : c ∈ (strip front back s).getLast?) : c ∉ back := by
  obtain ⟨hne, rfl⟩ := List.mem_getLast?_eq_getLast h
  have hlast := List.rdropWhile_last_not (fun x => decide (x ∈ back)) _ hne
  rwa [decide_eq_true_eq] at hlast

theorem head?_strip {s : List α} {c : α} (h : c ∈ (strip front back s).head?) : c ∉ front := by
  have hpre : strip front back s <+: s.dropWhile (· ∈ front) := List.rdropWhile_prefix _ _
  obtain ⟨t, ht⟩ := List.head?_eq_some_iff.mp h
  obtain ⟨u, hu⟩ := hpre
  rw [ht, List.cons_append] at hu
  have hhead := List.head?_dropWhile_not (fun x => decide (x ∈ front)) s
  rw [← hu] at hhead
  simpa using hhead

theorem rdropWhile_append {r : List α} (u : List α) (hr : r ⊆ back) :
    (u ++ r).rdropWhile (· ∈ back) = u.rdropWhile (· ∈ back) := by
  rw [List.rdropWhile, List.rdropWhile, List.reverse_append,
    List.dropWhile_append_of_pos fun x hx => decide_eq_true (hr (List.mem_reverse.mp hx))]

/-- Between a beginning and an end in the sets, `strip` finds what neither begins nor ends in them. -/
theorem strip_append {l v r : List α} (hl : l ⊆ front) (hr : r ⊆ back)
    (hhead : ∀ c ∈ v.head?, c ∉ front) (hlast : ∀ c ∈ v.getLast?, c ∉ back) :
    strip front back (l ++ (v ++ r)) = v := by
  rw [strip, List.dropWhile_append_of_pos fun x hx => decide_eq_true (hl hx)]
  cases v with
  | nil => exact strip_eq_nil hr
  | cons c t =>
    have hc : c ∉ front := hhead c rfl
    rw [List.cons_append, List.dropWhile_cons_of_neg (by simpa using hc), ← List.cons_append,
      rdropWhile_append _ hr, List.rdropWhile_eq_self_iff]
    intro hne
    simpa using hlast _ (List.getLast_mem_getLast? hne)

theorem strip_strip (front back s : List α) :
    strip front back (strip front back s) = strip front back s := by
  have h := strip_append (l := []) (r := []) (List.nil_subset front) (List.nil_subset back)
    (fun _ => head?_strip) fun _ => getLast?_strip (s := s)
  rwa [List.nil_append, List.append_nil] at h

/-! ## Stripping with two searches -/

/-- The first search finds nothing exactly in a sequence that is all beginning. -/
theorem findIdx?_not_mem_eq_none_iff {set s : List α} :
    s.findIdx? (· ∉ set) = none ↔ s ⊆ set := by
  simp only [List.findIdx?_eq_none_iff, decide_eq_false_iff_not, not_not]
  rfl

theorem findLastIdx?_not_mem_eq_none_iff {set s : List α} :
    findLastIdx? (· ∉ set) s = none ↔ s ⊆ set := by
  simp only [findLastIdx?_eq_none_iff, decide_eq_false_iff_not, not_not]
  rfl

/-- The first search splits the sequence behind its longest beginning. -/
theorem exists_of_findIdx?_not_mem {set s : List α} {a : ℕ} (h : s.findIdx? (· ∉ set) = some a) :
    ∃ l c t, s = l ++ c :: t ∧ l.length = a ∧ c ∉ set ∧ l ⊆ set := by
  obtain ⟨l, c, t, hs, ha, hc, hl⟩ := exists_of_findIdx? h
  simp only [decide_eq_true_eq, decide_eq_false_iff_not, not_not] at hc hl
  exact ⟨l, c, t, hs, ha, hc, hl⟩

/-- **What lies between the two offsets.** An element that is not in `back` is not in `front`, so that the
last one of them does not come before the first element that is not in `front`. -/
theorem substr_eq_strip {s : List α} {a b : ℕ} (hsub : front ⊆ back)
    (ha : s.findIdx? (· ∉ front) = some a) (hb : findLastIdx? (· ∉ back) s = some b) :
    a ≤ b ∧ substr s a (b - a + 1) = strip front back s := by
  obtain ⟨l, c, t, hs, rfl, hc, hl⟩ := exists_of_findIdx?_not_mem ha
  obtain ⟨u, d, r, hs', rfl, hd, hr⟩ := exists_of_findLastIdx? hb
  simp only [decide_eq_true_eq, decide_eq_false_iff_not, not_not] at hd hr
  obtain ⟨m, rfl, hm⟩ : ∃ m, u = l ++ m ∧ c :: t = m ++ d :: r := by
    rcases List.append_eq_append_iff.mp (hs.symm.trans hs') with h | ⟨m, rfl, hm⟩
    · exact h
    · cases m with
      | nil => exact ⟨[], by simp, hm.symm⟩
      | cons x m =>
        obtain ⟨rfl, -⟩ := List.cons.inj hm
        exact absurd (hsub (hl (by simp))) hd
  have hsplit : s = l ++ ((m ++ [d]) ++ r) := by rw [hs']; simp
  have hstrip : strip front back s = m ++ [d] := by
    rw [hsplit]
    refine strip_append hl hr (fun x hx => ?_) (by simpa using hd)
    -- the part begins where the first search has stopped
    have hhead : (m ++ d :: r).head? = (m ++ [d]).head? := by cases m <;> rfl
    rw [← hhead, ← hm] at hx
    obtain rfl : c = x := by simpa using hx
    exact hc
  have hcount : (l ++ m).length - l.length + 1 = (m ++ [d]).length := by simp
  refine ⟨by simp, ?_⟩
  rw [hstrip, hcount, substr, hsplit, List.drop_left, List.take_left]

end Strip

end Str
