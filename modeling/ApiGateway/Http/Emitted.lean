import ApiGateway.Http.Accept
import ApiGateway.Http.Trim

/-!
# What the parser can emit

Every request that a client connection's parser completes has a well-formed method, a path without a
question mark, targets without line breaks, and headers whose names and values are clean, lower-cased and
trimmed (`Reached.emitted`). The property is an invariant of the progress, so that it also holds of
requests that are completed after an earlier error.
-/

namespace ApiGateway.Http

open Str HttpParser Resumable

/-! ## Emitted requests -/

/-- A header as the parser stores it. -/
structure EmittedHeader (key value : Bytes) : Prop where
  key_ne_nil : key ≠ []
  key_clean : ∀ c ∈ key, c ∉ [sp, tab, cr, lf]
  key_lower : toLower key = key
  colon_not_mem : colon ∉ key
  value_clean : ∀ c ∈ value, c ∉ crlf
  value_trimmed : Trimmed value

theorem FieldLine.emitted (f : FieldLine) : EmittedHeader f.key f.value where
  key_ne_nil := f.key_ne_nil
  key_clean := f.key_clean
  key_lower := toLower_toLower _
  colon_not_mem h := f.colon_not_mem (trim_subset _ ((mem_toLower_iff (by decide) _).mp h))
  value_clean := f.value_clean
  value_trimmed := trimmed_trim fun h => f.value_clean cr h (by decide)

/-- A head as the parser fills it. -/
structure Head.Emitted (h : Head) : Prop where
  method_ne_nil : h.method ≠ []
  method_chars : h.method.all isMethodChar = true
  path_head : h.path.head? = some slash
  path_clean : ∀ c ∈ h.path, c ≠ questionMark ∧ c ∉ crlf
  query_clean : ∀ c ∈ h.query, c ∉ crlf
  headers : ∀ key value, h.headers.lookup key = some value → EmittedHeader key value

theorem Head.emitted_ofRequestLine (l : RequestLine) : (Head.ofRequestLine l).Emitted where
  method_ne_nil := l.method_ne_nil
  method_chars := l.method_chars
  path_head := l.path_head
  path_clean c hc := by
    refine ⟨by simpa using List.mem_takeWhile_imp hc, ?_⟩
    exact l.target_clean c (List.takeWhile_subset _ hc)
  query_clean c hc := by
    refine l.target_clean c ?_
    exact (List.dropWhile_suffix _).subset (List.drop_subset _ _ hc)
  headers key value h := by simp [Head.ofRequestLine] at h

theorem Head.Emitted.withField {h : Head} (hh : h.Emitted) (f : FieldLine) :
    (h.withField f).Emitted where
  method_ne_nil := hh.method_ne_nil
  method_chars := hh.method_chars
  path_head := hh.path_head
  path_clean := hh.path_clean
  query_clean := hh.query_clean
  headers key value hlookup := by
    by_cases hkey : key = f.key
    · subst hkey
      obtain rfl : f.value = value := by simpa [Head.withField] using hlookup
      exact f.emitted
    · rw [Head.withField, Finmap.lookup_insert_of_ne _ hkey] at hlookup
      exact hh.headers key value hlookup

theorem Head.Emitted.recount {h : Head} (hh : h.Emitted) (n : ℕ) :
    Head.Emitted { h with headerCount := n } := ⟨hh.1, hh.2, hh.3, hh.4, hh.5, hh.6⟩

/-- Progress with an emitted head, and a body within the limit. -/
def Progress.Emitted : Progress → Prop
  | .requestLine => True
  | .headers h => h.Emitted
  | .body h n => h.Emitted ∧ n ≤ kMaxBodyBytes

/-- **Reading a line keeps what has been read well formed.** -/
theorem Progress.Emitted.readLine {g g' : Progress} {line : Bytes} (hg : g.Emitted)
    (hline : ¬ crlf <:+: line) (h : g.readLine line = some g') : g'.Emitted := by
  cases g with
  | requestLine =>
    obtain ⟨k, hk, rfl⟩ := Option.map_eq_some_iff.mp h
    obtain ⟨l, -, rfl⟩ := (Head.ofLine_eq_some_iff line k).mp hk
    exact Head.emitted_ofRequestLine l
  | headers k =>
    rw [Progress.readLine] at h
    split at h
    · obtain ⟨n, hn, rfl⟩ := Option.map_eq_some_iff.mp h
      exact ⟨hg, bodyLength_le hn⟩
    · obtain ⟨k', hk', rfl⟩ := Option.map_eq_some_iff.mp h
      obtain ⟨f, -, -, rfl⟩ := (Head.addLine_eq_some_iff k k' hline).mp hk'
      exact hg.withField f
  | body k n => simp [Progress.readLine] at h

theorem Progress.Emitted.recount {g : Progress} (hg : g.Emitted) (n : ℕ) : (g.recount n).Emitted := by
  cases g with
  | requestLine => trivial
  | headers h => exact Head.Emitted.recount hg n
  | body h m => exact ⟨hg.1.recount n, hg.2⟩

/-- So does a silent run. -/
theorem Progress.Emitted.silent {g g' : Progress} {u w : Bytes} (hg : g.Emitted)
    (h : scanner.Silent g u g' w) : g'.Emitted := by
  induction h with
  | refl => exact hg
  | step hstep _ ih =>
    obtain ⟨line, -, hcut, hread⟩ := Progress.step_none hstep
    exact ih (hg.readLine (not_infix_of_cut hcut) hread)

/-- A parser that a connection can hold stands for well-formed progress. -/
theorem Reached.rep_emitted {p : HttpParser} (h : Reached p) : ∃ g u, Rep p g u ∧ g.Emitted :=
  h.rep_invariant trivial (fun hg hsil => hg.silent hsil) fun hg n => hg.recount n

/-- **What a connection's parser can emit**: a head as above, with a body within the limit. -/
theorem Reached.emitted {p q : HttpParser} (h : Reached p) {out r : HttpRequest}
    (hparse : p.parse out = (.Complete, q, r)) :
    ∃ k : Head, k.Emitted ∧ r.body.length ≤ kMaxBodyBytes ∧
      r = { k.request r.body with requestId := out.requestId } := by
  obtain ⟨g, u, hrep, hg⟩ := h.rep_emitted
  have hsim := parse_sim hrep out
  rw [hparse] at hsim
  obtain ⟨g', w, r', v, hsil, hstep, -, rfl⟩ := hsim
  obtain ⟨k, n, rfl, hn, -, -, rfl⟩ := Progress.step_some hstep
  obtain ⟨hk, hle⟩ := hg.silent hsil
  refine ⟨k, hk, ?_, rfl⟩
  have hlen : (w.take n).length = n := List.length_take_of_le hn
  exact hlen.trans_le hle

end ApiGateway.Http
