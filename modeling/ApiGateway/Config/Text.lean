import ApiGateway.Common.Strip
import ApiGateway.Config.Loader

/-!
# Lines of the configuration file

What `trim`, `stripComment`, `tokenize` and `splitKv` make of lines that have been written down with
indentation, trailing blanks, comments, and empty lines in between. All of that is gone after `tokenize`
(`tokenize_of_renders`), and an entry is split at its first colon, whatever its value holds
(`splitKv_entry`).

Reference: `src/config/Config.cpp`.
-/

namespace ApiGateway.Config

open Str Http

/-! ## Values -/

/-- A value that can be written: not empty, trimmed, on one line and without the mark of a comment. -/
structure Plain (v : Bytes) : Prop where
  head : ∃ c ∈ v.head?, c ∉ blank
  last : ∃ c ∈ v.getLast?, c ∉ blank
  no_hash : hash ∉ v
  no_lf : lf ∉ v

theorem plain_iff (v : Bytes) :
    Plain v ↔ (∃ c ∈ v.head?, c ∉ blank) ∧ (∃ c ∈ v.getLast?, c ∉ blank) ∧ hash ∉ v ∧ lf ∉ v :=
  ⟨fun h => ⟨h.head, h.last, h.no_hash, h.no_lf⟩, fun h => ⟨h.1, h.2.1, h.2.2.1, h.2.2.2⟩⟩

instance (v : Bytes) : Decidable (Plain v) := decidable_of_iff' _ (plain_iff v)

theorem Plain.ne_nil {v : Bytes} (h : Plain v) : v ≠ [] := by
  rintro rfl
  obtain ⟨c, hc, -⟩ := h.head
  exact absurd hc (by simp)

/-- The two searches of `trim` skip the same bytes, so that both or none of them find something. -/
theorem trim_eq_strip (s : Bytes) : trim s = strip blank blank s := by
  cases hfirst : s.findIdx? (· ∉ blank) with
  | none =>
    rw [trim, hfirst, strip_eq_nil (findIdx?_not_mem_eq_none_iff.mp hfirst)]
  | some a =>
    cases hlast : findLastIdx? (· ∉ blank) s with
    | none =>
      have hnone := findIdx?_not_mem_eq_none_iff.mpr (findLastIdx?_not_mem_eq_none_iff.mp hlast)
      exact absurd (hfirst.symm.trans hnone) (by simp)
    | some b =>
      obtain ⟨hle, hsub⟩ := substr_eq_strip (List.Subset.refl blank) hfirst hlast
      simp only [trim, hfirst, hlast, Option.getD_some, sizeSub_of_le hle, hsub]

/-- Between blanks, `trim` finds a trimmed value. -/
theorem trim_append {l v r : Bytes} (hl : ∀ c ∈ l, c ∈ blank) (hr : ∀ c ∈ r, c ∈ blank)
    (hhead : ∃ c ∈ v.head?, c ∉ blank) (hlast : ∃ c ∈ v.getLast?, c ∉ blank) :
    trim (l ++ v ++ r) = v := by
  obtain ⟨c, hc, hcblank⟩ := hhead
  obtain ⟨d, hd, hdblank⟩ := hlast
  rw [trim_eq_strip, List.append_assoc]
  refine strip_append hl hr (fun x hx => ?_) fun x hx => ?_
  · rwa [Option.mem_unique hx hc]
  · rwa [Option.mem_unique hx hd]

theorem trim_blank {s : Bytes} (h : ∀ c ∈ s, c ∈ blank) : trim s = [] := by
  rw [trim_eq_strip, strip_eq_nil h]

theorem Plain.trim {v : Bytes} (h : Plain v) : trim v = v := by
  have heq := trim_append (l := []) (r := []) (by simp) (by simp) h.head h.last
  rwa [List.nil_append, List.append_nil] at heq

theorem Plain.trim_sp {v : Bytes} (h : Plain v) : Config.trim (sp :: v) = v := by
  have heq := trim_append (l := [sp]) (r := []) (by simp [blank]) (by simp) h.head h.last
  rwa [List.append_nil] at heq

/-- A name of a setting. -/
structure Key (k : Bytes) : Prop where
  plain : Plain k
  no_colon : colon ∉ k

instance (k : Bytes) : Decidable (Key k) :=
  decidable_of_iff' (Plain k ∧ colon ∉ k) ⟨fun h => ⟨h.plain, h.no_colon⟩, fun h => ⟨h.1, h.2⟩⟩

/-- The first colon ends the key, whatever the value holds. -/
theorem splitKv_entry {k v : Bytes} (hk : Key k) (hv : Plain v) :
    splitKv (k ++ colon :: sp :: v) = (k, v) := by
  simp only [splitKv, findIdx?_eq_append_cons (sp :: v) hk.no_colon, drop_length_append_cons, hv.trim_sp,
    substr, List.drop_zero, List.take_left, hk.plain.trim]

theorem splitKv_header {k : Bytes} (hk : Key k) : splitKv (k ++ [colon]) = (k, []) := by
  have hnil : Config.trim [] = [] := trim_blank (by simp)
  simp only [splitKv, findIdx?_eq_append_cons [] hk.no_colon, drop_length_append_cons, hnil, substr,
    List.drop_zero, List.take_left, hk.plain.trim]

/-! ## Lines of a file -/

/-- What may follow on a line: blanks, and possibly a comment. -/
def Trailer (rest : Bytes) : Prop :=
  ∃ blanks comment, rest = blanks ++ comment ∧ (∀ c ∈ blanks, c ∈ blank) ∧
    (comment = [] ∨ ∃ t, comment = hash :: t) ∧ lf ∉ comment

/-- Lines that are written down, with empty lines and lines of comment in between. -/
inductive Written : List Line → List Bytes → Prop
  | nil : Written [] []
  | line (ln : Line) {rest : Bytes} {lines : List Line} {raws : List Bytes} (hrest : Trailer rest)
      (htail : Written lines raws) :
      Written (ln :: lines) ((List.replicate ln.indent sp ++ ln.content ++ rest) :: raws)
  | filler {raw : Bytes} {lines : List Line} {raws : List Bytes} (hraw : Trailer raw)
      (htail : Written lines raws) : Written lines (raw :: raws)

/-- A text of such lines; the end of the last one may be missing. -/
def Renders (lines : List Line) (text : Bytes) : Prop :=
  ∃ raws, Written lines raws ∧
    (text = raws.flatMap (· ++ [lf]) ∨ text ++ [lf] = raws.flatMap (· ++ [lf]))

theorem stripComment_trailer {s blanks comment : Bytes} (hs : hash ∉ s)
    (hblanks : ∀ c ∈ blanks, c ∈ blank) (hcomment : comment = [] ∨ ∃ t, comment = hash :: t) :
    stripComment (s ++ (blanks ++ comment)) = s ++ blanks := by
  have hclean : hash ∉ s ++ blanks := by
    rw [List.mem_append, not_or]
    exact ⟨hs, fun h => absurd (hblanks hash h) (by decide)⟩
  rw [← List.append_assoc]
  rcases hcomment with rfl | ⟨t, rfl⟩
  · rw [List.append_nil]
    simp only [stripComment, findIdx?_eq_none_of_not_mem hclean]
  · simp only [stripComment, findIdx?_eq_append_cons t hclean, substr, List.drop_zero, List.take_left]

theorem not_mem_trailer {rest : Bytes} (h : Trailer rest) : lf ∉ rest := by
  obtain ⟨blanks, comment, rfl, hblanks, -, hlf⟩ := h
  rw [List.mem_append, not_or]
  exact ⟨fun hmem => absurd (hblanks lf hmem) (by decide), hlf⟩

theorem toLine_trailer {raw : Bytes} (h : Trailer raw) : toLine raw = none := by
  obtain ⟨blanks, comment, rfl, hblanks, hcomment, -⟩ := h
  have hstrip := stripComment_trailer (s := []) List.not_mem_nil hblanks hcomment
  rw [List.nil_append, List.nil_append] at hstrip
  simp only [toLine, hstrip, trim_blank hblanks, if_true]

theorem toLine_line {ln : Line} (h : Plain ln.content) {rest : Bytes} (hrest : Trailer rest) :
    toLine (List.replicate ln.indent sp ++ ln.content ++ rest) = some ln := by
  obtain ⟨blanks, comment, rfl, hblanks, hcomment, -⟩ := hrest
  have hindent : ∀ c ∈ List.replicate ln.indent sp, c = sp := fun c hc => (List.mem_replicate.mp hc).2
  have hclean : hash ∉ List.replicate ln.indent sp ++ ln.content := by
    rw [List.mem_append, not_or]
    exact ⟨fun hmem => absurd (hindent hash hmem) (by decide), h.no_hash⟩
  have htrim : Config.trim (List.replicate ln.indent sp ++ ln.content ++ blanks) = ln.content := by
    refine trim_append (fun c hc => ?_) hblanks h.head h.last
    rw [hindent c hc]
    decide
  obtain ⟨c, hc, hcblank⟩ := h.head
  obtain ⟨t, ht⟩ := List.head?_eq_some_iff.mp hc
  have hlen : ((List.replicate ln.indent sp ++ ln.content ++ blanks).takeWhile (· = sp)).length
      = ln.indent := by
    rw [List.append_assoc, List.takeWhile_append_of_pos (by simp), ht, List.cons_append,
      List.takeWhile_cons_of_neg, List.append_nil, List.length_replicate]
    simp only [decide_eq_true_eq]
    rintro rfl
    exact hcblank (by decide)
  simp only [toLine, stripComment_trailer hclean hblanks hcomment, htrim, hlen, if_neg h.ne_nil]

theorem Written.filterMap {lines : List Line} {raws : List Bytes} (h : Written lines raws)
    (hplain : ∀ ln ∈ lines, Plain ln.content) :
    (∀ raw ∈ raws, lf ∉ raw) ∧ raws.filterMap toLine = lines := by
  induction h with
  | nil => exact ⟨by simp, rfl⟩
  | line ln hrest _ ih =>
    rw [List.forall_mem_cons] at hplain
    obtain ⟨hraws, heq⟩ := ih hplain.2
    refine ⟨List.forall_mem_cons.mpr ⟨?_, hraws⟩, ?_⟩
    · simp only [List.mem_append, not_or]
      refine ⟨⟨fun hmem => ?_, hplain.1.no_lf⟩, not_mem_trailer hrest⟩
      exact absurd (List.mem_replicate.mp hmem).2 (by decide)
    · rw [List.filterMap_cons_some (toLine_line hplain.1 hrest), heq]
  | filler hraw _ ih =>
    obtain ⟨hraws, heq⟩ := ih hplain
    refine ⟨List.forall_mem_cons.mpr ⟨not_mem_trailer hraw, hraws⟩, ?_⟩
    rw [List.filterMap_cons_none (toLine_trailer hraw), heq]

/-- **`tokenize` reads back the lines**, without blanks and comments. -/
theorem tokenize_of_renders {lines : List Line} {text : Bytes} (h : Renders lines text)
    (hplain : ∀ ln ∈ lines, Plain ln.content) : tokenize text = lines := by
  obtain ⟨raws, hwritten, htext⟩ := h
  obtain ⟨hraws, heq⟩ := hwritten.filterMap hplain
  rw [← heq, ← getlines_flatMap hraws, tokenize]
  rcases htext with rfl | htext
  · rfl
  · rw [← htext]
    have hnil : toLine [] = none := toLine_trailer ⟨[], [], rfl, by simp, .inl rfl, by simp⟩
    rcases getlines_concat (a := lf) text with hlines | hlines
    · rw [hlines]
    · rw [hlines, List.filterMap_append, List.filterMap_cons_none hnil, List.filterMap_nil,
        List.append_nil]

end ApiGateway.Config
