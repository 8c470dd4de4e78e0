import ApiGateway.Common.Strip
import ApiGateway.Http.Grammar

/-!
# Trimming

`HttpParser::trim` searches the first byte that is no blank and the last one that is neither a blank nor a
carriage return, and cuts out what lies between. In general that is `strip` (`trim_eq_strip`). If behind some
blanks there are carriage returns and nothing else, the second search fails where the first one does not:
`b - a + 1` wraps around to a count beyond the end of the string, and everything from the first carriage
return on is kept (`trim_of_overruns`).

A header line with such a value is refused (`addHeader_of_overruns`), because of the carriage return that is
left. The lines that are accepted have been stripped (`FieldLine.value_eq_strip`).

Reference: `src/http/HttpParser.cpp`.
-/

namespace ApiGateway.Http

open Str

namespace HttpParser

/-- The string begins with a blank, and what it holds besides blanks are carriage returns. -/
def Overruns (s : Bytes) : Prop :=
  (∃ c ∈ s.head?, c ∈ [sp, tab]) ∧ cr ∈ s ∧ ∀ c ∈ s, c ∈ [sp, tab, cr]

instance (s : Bytes) : Decidable (Overruns s) := inferInstanceAs (Decidable (_ ∧ _))

theorem blanks_subset : [sp, tab] ⊆ [sp, tab, cr] := List.subset_append_left [sp, tab] [cr]

/-- The first search stops at a carriage return if there is nothing else to stop at. -/
theorem eq_cr_of_mem {c : UInt8} (h : c ∈ [sp, tab, cr]) (hc : c ∉ [sp, tab]) : c = cr := by
  simp only [List.mem_cons, List.not_mem_nil, or_false, not_or] at h hc
  tauto

/-- **Where the second search fails.** What is left begins with a carriage return, and has nothing to keep. -/
theorem trim_of_overruns {s : Bytes} (h : Overruns s) :
    ∃ r, trim s = cr :: r ∧ ∀ c ∈ r, c ∈ [sp, tab, cr] := by
  obtain ⟨⟨c, hhead, hblank⟩, hcr, hall⟩ := h
  have hlast : findLastIdx? (· ∉ [sp, tab, cr]) s = none := findLastIdx?_not_mem_eq_none_iff.mpr hall
  cases hfirst : s.findIdx? (· ∉ [sp, tab]) with
  | none => exact absurd (findIdx?_not_mem_eq_none_iff.mp hfirst hcr) (by decide)
  | some a =>
    rw [trim, hfirst]
    simp only [hlast]
    obtain ⟨l, d, t, rfl, rfl, hd, -⟩ := exists_of_findIdx?_not_mem hfirst
    obtain rfl := eq_cr_of_mem (hall d (by simp)) hd
    have hpos : 0 < l.length := by
      rw [List.length_pos_iff]
      rintro rfl
      obtain rfl : cr = c := by simpa using hhead
      exact hd hblank
    obtain ⟨n, hn⟩ : ∃ n, (2 ^ 64 - 1 - l.length + 1) % 2 ^ 64 = n + 1 :=
      Nat.exists_eq_succ_of_ne_zero (by omega)
    rw [hn, substr, List.drop_left, List.take_succ_cons]
    exact ⟨_, rfl, fun c hc => hall c (by simp [List.mem_of_mem_take hc])⟩

/-- **Everywhere else `trim` strips**: leading blanks, and trailing blanks and carriage returns. -/
theorem trim_eq_strip {s : Bytes} (h : ¬ Overruns s) : trim s = strip [sp, tab] [sp, tab, cr] s := by
  cases hfirst : s.findIdx? (· ∉ [sp, tab]) with
  | none =>
    have hall := findIdx?_not_mem_eq_none_iff.mp hfirst
    rw [trim, hfirst, strip_eq_nil (List.Subset.trans hall blanks_subset)]
  | some a =>
    rw [trim, hfirst]
    cases hlast : findLastIdx? (· ∉ [sp, tab, cr]) s with
    | some b =>
      obtain ⟨hle, hsub⟩ := substr_eq_strip blanks_subset hfirst hlast
      simp only [sizeSub_of_le hle, hsub]
    | none =>
      have hall := findLastIdx?_not_mem_eq_none_iff.mp hlast
      obtain ⟨l, d, t, rfl, rfl, hd, hl⟩ := exists_of_findIdx?_not_mem hfirst
      have hmem : d ∈ l ++ d :: t := List.mem_append_right l List.mem_cons_self
      obtain rfl := eq_cr_of_mem (hall hmem) hd
      cases l with
      | nil =>
        -- `npos - 0 + 1` is 0, so that nothing is cut out
        rw [strip_eq_nil hall]
        rfl
      | cons c l => exact absurd ⟨⟨c, rfl, hl List.mem_cons_self⟩, hmem, fun x hx => hall hx⟩ h

/-- A string that begins with a carriage return overruns nothing: the offset is 0, and so is the count. -/
theorem trim_cr_cons {r : Bytes} (hr : ∀ c ∈ r, c ∈ [sp, tab, cr]) : trim (cr :: r) = [] := by
  have hhead : ¬ Overruns (cr :: r) := by
    rintro ⟨⟨c, hc, hblank⟩, -⟩
    obtain rfl : cr = c := by simpa using hc
    exact absurd hblank (by decide)
  rw [trim_eq_strip hhead, strip_eq_nil]
  exact List.cons_subset.mpr ⟨by decide, hr⟩

/-- **When `trim` does what it is for.** It removes the longest beginning of blanks and then the longest end of
blanks and carriage returns, or leaves no blank and no carriage return at the end, or has nothing left to do
when it is called again, each if and only if the string does not overrun. -/
theorem trim_strips_iff (s : Bytes) :
    (Stripped [sp, tab] [sp, tab, cr] s (trim s) ↔ ¬ Overruns s) ∧
      ((∀ c ∈ (trim s).getLast?, c ∉ [sp, tab, cr]) ↔ ¬ Overruns s) ∧
      (trim (trim s) = trim s ↔ ¬ Overruns s) := by
  by_cases h : Overruns s
  · obtain ⟨r, hr, hall⟩ := trim_of_overruns h
    simp only [h, not_true_eq_false, iff_false, hr]
    refine ⟨fun hstrip => ?_, fun hlast => ?_, fun htwice => ?_⟩
    · rw [stripped_iff, strip_eq_nil fun c hc => h.2.2 c hc] at hstrip
      exact List.cons_ne_nil _ _ hstrip
    · have hmem := List.getLast_mem (List.cons_ne_nil cr r)
      refine hlast _ (List.getLast_mem_getLast? (List.cons_ne_nil cr r)) ?_
      exact List.cons_subset.mpr ⟨by decide, hall⟩ hmem
    · rw [trim_cr_cons hall] at htwice
      exact List.cons_ne_nil _ _ htwice.symm
  · have hstrip := trim_eq_strip h
    have hlast : ∀ c ∈ (trim s).getLast?, c ∉ [sp, tab, cr] := by
      rw [hstrip]
      exact fun c => getLast?_strip
    have hagain : ¬ Overruns (trim s) := by
      rintro ⟨-, hcr, hall⟩
      have hne := List.ne_nil_of_mem hcr
      exact hlast _ (List.getLast_mem_getLast? hne) (hall _ (List.getLast_mem hne))
    simp only [h, not_false_eq_true, iff_true]
    refine ⟨(stripped_iff _ _ _ _).mpr hstrip, hlast, ?_⟩
    rw [trim_eq_strip hagain, hstrip, strip_strip]

/-- A blank and a carriage return: the carriage return is left, and a second call removes it. -/
theorem trim_overrun :
    ¬ Stripped [sp, tab] [sp, tab, cr] (bytes " \r") (trim (bytes " \r")) ∧
      trim (bytes " \r") = bytes "\r" ∧ trim (trim (bytes " \r")) = [] := by
  rw [stripped_iff]
  decide

/-! ## Trimmed strings -/

/-- Neither begins nor ends with a space or a tab. -/
def Trimmed (v : Bytes) : Prop :=
  (∀ c ∈ v.head?, c ∉ [sp, tab]) ∧ ∀ c ∈ v.getLast?, c ∉ [sp, tab]

theorem trim_subset (s : Bytes) : trim s ⊆ s := by
  have hsub : ∀ a n, substr s a n ⊆ s := fun a n =>
    List.Subset.trans (List.take_subset _ _) (List.drop_subset _ _)
  unfold trim
  split
  · simp
  · split
    · exact hsub _ _
    · exact hsub _ _

/-- What is left without a carriage return has been stripped. -/
theorem trim_eq_strip_of_not_mem {s : Bytes} (hcr : cr ∉ trim s) :
    trim s = strip [sp, tab] [sp, tab, cr] s := by
  refine trim_eq_strip fun h => ?_
  obtain ⟨r, hr, -⟩ := trim_of_overruns h
  rw [hr] at hcr
  exact hcr List.mem_cons_self

/-- What is left without a carriage return has been trimmed at both ends. -/
theorem trimmed_trim {s : Bytes} (hcr : cr ∉ trim s) : Trimmed (trim s) := by
  rw [trim_eq_strip_of_not_mem hcr]
  exact ⟨fun _ => head?_strip, fun _ hc hmem => getLast?_strip hc (blanks_subset hmem)⟩

/-- Leading white space is stripped from a trimmed string, and nothing else. -/
theorem trim_append (ws : Bytes) {v : Bytes} (hws : ∀ c ∈ ws, c ∈ [sp, tab]) (hv : Trimmed v)
    (hcr : cr ∉ v) : trim (ws ++ v) = v := by
  have hfits : ¬ Overruns (ws ++ v) := by
    rintro ⟨-, hmem, -⟩
    rcases List.mem_append.mp hmem with hmem | hmem
    · exact absurd (hws cr hmem) (by decide)
    · exact hcr hmem
  have hlast : ∀ c ∈ v.getLast?, c ∉ [sp, tab, cr] := by
    intro c hc hmem
    have hne := eq_cr_of_mem hmem (hv.2 c hc)
    exact hcr (hne ▸ List.mem_of_mem_getLast? hc)
  have hstrip := strip_append hws (List.nil_subset _) hv.1 hlast
  rwa [List.append_nil, ← trim_eq_strip hfits] at hstrip

theorem trim_eq_self {v : Bytes} (hv : Trimmed v) (hcr : cr ∉ v) : trim v = v :=
  trim_append [] (by simp) hv hcr

theorem trim_sp_cons {v : Bytes} (hv : Trimmed v) (hcr : cr ∉ v) : trim (sp :: v) = v :=
  trim_append [sp] (by simp) hv hcr

/-! ## Header lines -/

/-- **A value that overruns is refused**, although it is blank. -/
theorem addHeader_of_overruns (p : HttpParser) {name rest : Bytes} (hname : colon ∉ name)
    (h : Overruns rest) : p.addHeader (name ++ colon :: rest) = (p, .error .invalidHeader) := by
  obtain ⟨r, hr, -⟩ := trim_of_overruns h
  have hvalue : headerValue (name ++ colon :: rest) name.length = cr :: r := by
    rw [headerValue, drop_length_append_cons, hr]
  have hfound : ((cr :: r).findIdx? (· ∈ crlf)).isSome = true := by
    rw [List.findIdx?_cons]
    rfl
  rw [addHeader, findIdx?_eq_append_cons rest hname]
  simp only [hvalue, hfound, or_true, if_true]

end HttpParser

open HttpParser

/-- **The value of a header line that is accepted has been stripped.** -/
theorem FieldLine.value_eq_strip (f : FieldLine) : f.value = strip [sp, tab] [sp, tab, cr] f.rest :=
  trim_eq_strip_of_not_mem fun hcr => f.value_clean cr hcr (by decide)

/-- So has its name. -/
theorem FieldLine.key_eq_strip (f : FieldLine) :
    f.key = toLower (strip [sp, tab] [sp, tab, cr] f.name) := by
  have hcr : cr ∉ trim f.name := fun hcr =>
    f.key_clean cr ((mem_toLower_iff (by decide) _).mpr hcr) (by decide)
  rw [FieldLine.key, trim_eq_strip_of_not_mem hcr]

end ApiGateway.Http
