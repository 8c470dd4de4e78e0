import ApiGateway.Common.Reactive
import ApiGateway.Http.Accept

/-!
# What an error leaves behind

No state of `HttpParser` stands for a failure: `parse` catches the exception and returns, and the next call
goes on from whatever the throwing point has left. `parse_error` says what that is. The refused line is
still there and is refused again; where the blank line has been skipped, the framing headers stay
contradictory, since none of them can come a second time. So no later call completes a request
(`HttpParser.Dead.parse`), with one exception: a line that has become too long before its end has arrived is read
again, and taken if its end makes it a good line (`GivenUpEarly`).
-/

namespace ApiGateway.Http

open Str HttpParser Resumable

/-! ## The parser after an error -/

theorem requestLinePhase_of_headers {p : HttpParser} {h : Head} {u : Bytes}
    (hrep : Rep p (.headers h) u) : p.requestLinePhase = (p, .ok true) := by
  rw [requestLinePhase, if_neg (by simp [hrep.1])]

theorem parse_error_of_headers {p q : HttpParser} {h : Head} {u : Bytes} {out out' : HttpRequest}
    (hrep : Rep p (.headers h) u) (herr : p.parse out = (.Error, q, out')) :
    ∃ k w, scanner.Silent (.headers h) u (.headers k) w ∧
      Progress.step (.headers k) w = .fail ∧ Leaves (.headers k) w q := by
  rw [parse, requestLinePhase_of_headers hrep] at herr
  rcases headersPhase_cases hrep with ⟨q', e, hphase, k, w, hsil, hfail, hq⟩ | ⟨q', hphase, -⟩ |
    ⟨q', hphase, -⟩
  · simp only [hphase, Prod.mk.injEq, true_and] at herr
    obtain ⟨rfl, -⟩ := herr
    exact ⟨k, w, hsil, hfail, hq⟩
  · simp [hphase] at herr
  · simp only [hphase] at herr
    split at herr <;> simp at herr

/-- **The parser after an error**, in terms of where the scanner fails. -/
theorem parse_error {p q : HttpParser} {g : Progress} {u : Bytes} {out out' : HttpRequest}
    (hrep : Rep p g u) (herr : p.parse out = (.Error, q, out')) :
    ∃ g' w, scanner.Silent g u g' w ∧ g'.step w = .fail ∧ Leaves g' w q := by
  cases g with
  | requestLine =>
    have hsim := requestLinePhase_sim hrep
    rcases hphase : p.requestLinePhase with ⟨q', e | _ | _⟩
    · simp only [parse, hphase, Prod.mk.injEq, true_and] at herr
      obtain ⟨rfl, -⟩ := herr
      rw [hphase] at hsim
      exact ⟨_, u, .refl _ _, hsim.1, .same hsim.2⟩
    · simp [parse, hphase] at herr
    · -- the call goes on as one on the parser behind the request line
      rw [hphase] at hsim
      obtain ⟨k, r, hstep, hq⟩ := hsim
      have herr' : q'.parse out = (.Error, q, out') := by
        rw [parse, requestLinePhase_of_headers hq]
        rwa [parse, hphase] at herr
      obtain ⟨k', w, hsil, hrest⟩ := parse_error_of_headers hq herr'
      exact ⟨_, w, .step hstep hsil, hrest⟩
  | headers h =>
    obtain ⟨k, w, hsil, hrest⟩ := parse_error_of_headers hrep herr
    exact ⟨_, w, hsil, hrest⟩
  | body h n =>
    have hsim := parse_sim hrep out
    rw [herr] at hsim
    obtain ⟨-, g', w, hsil, hfail, -⟩ := hsim
    obtain ⟨rfl, rfl⟩ := eq_of_silent_body hsil
    exact (Progress.step_fail hfail).1.elim

/-! ## Progress that leads nowhere -/

/-- The framing headers read so far are invalid or contradict each other. -/
def Progress.Misframed : Progress → Prop
  | .requestLine => False
  | .headers h => bodyLength h.headers = none
  | .body _ _ => False

/-- More headers do not mend the framing, since a framing header cannot come twice. -/
theorem bodyLength_insert_eq_none {m : HeaderMap} {key : Bytes} (value : Bytes)
    (h : bodyLength m = none) (hkey : ¬ (key ∈ m ∧ key ∈ framingKeys)) :
    bodyLength (m.insert key value) = none := by
  -- a framing header that is there keeps its value
  have hkeep : ∀ k v, k ∈ framingKeys → m.lookup k = some v →
      (m.insert key value).lookup k = some v := by
    intro k v hk hv
    rw [Finmap.lookup_insert_of_ne, hv]
    rintro rfl
    exact hkey ⟨Finmap.lookup_isSome.mp (by simp [hv]), hk⟩
  have hcl := fun v => hkeep (bytes "content-length") v (by decide)
  have hte := fun v => hkeep (bytes "transfer-encoding") v (by decide)
  rw [bodyLength] at h
  cases hc : m.lookup (bytes "content-length") with
  | some v =>
    cases ht : m.lookup (bytes "transfer-encoding") with
    | some te => rw [bodyLength, hcl v hc, hte te ht]
    | none =>
      rw [hc, ht] at h
      rw [bodyLength, hcl v hc]
      split <;> simp_all
  | none =>
    cases ht : m.lookup (bytes "transfer-encoding") with
    | some te =>
      rw [hc, ht] at h
      rw [bodyLength, hte te ht]
      split <;> simp_all
    | none => simp [hc, ht] at h

theorem Progress.Misframed.readLine {g g' : Progress} {line : Bytes} (h : g.Misframed)
    (hline : ¬ crlf <:+: line) (hread : g.readLine line = some g') : g'.Misframed := by
  cases g with
  | requestLine => exact h.elim
  | body k n => exact h.elim
  | headers k =>
    have hnone : bodyLength k.headers = none := h
    rw [Progress.readLine] at hread
    split at hread
    · simp [hnone] at hread
    · obtain ⟨k', hadd, rfl⟩ := Option.map_eq_some_iff.mp hread
      obtain ⟨f, -, hadm, rfl⟩ := (Head.addLine_eq_some_iff k k' hline).mp hadd
      exact bodyLength_insert_eq_none f.value hnone hadm.2

/-- Unread input `u` may turn out to begin with this line. -/
def Ahead (u line : Bytes) : Prop :=
  ¬ crlf <:+: line ∧ (line ++ crlf <+: u ∨ u <+: line ++ crlf)

theorem Ahead.of_append {u v line : Bytes} (h : Ahead (u ++ v) line) : Ahead u line := by
  refine ⟨h.1, ?_⟩
  rcases h.2 with h | h
  · exact List.prefix_or_prefix_of_prefix h (List.prefix_append u v)
  · exact .inr ((List.prefix_append u v).trans h)

theorem ahead_of_cut {u line r : Bytes} (h : cut crlf u = some (line, r)) : Ahead u line :=
  ⟨not_infix_of_cut h, .inl ⟨r, (append_of_cut h).symm⟩⟩

/-- A line that has arrived is the only one that can be next. -/
theorem Ahead.eq_of_cut {u line line' r : Bytes} (h : Ahead u line')
    (hcut : cut crlf u = some (line, r)) : line' = line := by
  obtain ⟨hnot, ⟨t, rfl⟩ | ⟨t, ht⟩⟩ := h
  · rw [cut_crlf t hnot] at hcut
    exact (Prod.mk.inj (Option.some.inj hcut)).1
  · have hwhole := cut_append t hcut
    rw [ht, ← List.append_nil (line' ++ crlf), cut_crlf [] hnot] at hwhole
    exact (Prod.mk.inj (Option.some.inj hwhole)).1

/-- Every line that can be next is refused, or leaves the framing contradictory. -/
def Lost (g : Progress) (u : Bytes) : Prop :=
  g.InHead ∧ ∀ line g', Ahead u line → g.readLine line = some g' → g'.Misframed

theorem Progress.Misframed.lost {g : Progress} (h : g.Misframed) (u : Bytes) : Lost g u := by
  refine ⟨?_, fun line g' hahead hread => h.readLine hahead.1 hread⟩
  cases g with
  | requestLine => exact h.elim
  | headers k => trivial
  | body k n => exact h.elim

/-- A line that is refused stays the next line. -/
theorem lost_of_fail {g : Progress} {w line r : Bytes} (hfail : g.step w = .fail)
    (hcut : cut crlf w = some (line, r)) : Lost g w := by
  obtain ⟨hg, ⟨line', r', hcut', hread⟩ | ⟨hnone, -⟩⟩ := Progress.step_fail hfail
  · refine ⟨hg, fun line'' g' hahead hread' => ?_⟩
    rw [hahead.eq_of_cut hcut', hread] at hread'
    simp at hread'
  · simp [hcut] at hnone

namespace Lost

variable {g g' : Progress} {u w : Bytes}

theorem append (h : Lost g u) (v : Bytes) : Lost g (u ++ v) :=
  ⟨h.1, fun line g' hahead => h.2 line g' hahead.of_append⟩

theorem silent (h : Lost g u) (hsil : scanner.Silent g u g' w) : Lost g' w := by
  induction hsil with
  | refl => exact h
  | step hstep _ ih =>
    rw [scanner_step] at hstep
    obtain ⟨line, -, hcut, hread⟩ := Progress.step_none hstep
    exact ih ((h.2 line _ (ahead_of_cut hcut) hread).lost _)

/-- Having counted more lines does not help. -/
theorem recount {h : Head} {n : ℕ} (hlost : Lost (.headers h) u) (hn : h.headerCount ≤ n) :
    Lost (.headers { h with headerCount := n }) u := by
  refine ⟨trivial, fun line g' hahead hread => ?_⟩
  have hsame := hlost.2 line
  rw [Progress.readLine] at hread hsame
  split at hread
  · rename_i hblank
    rw [if_pos hblank] at hsame
    obtain ⟨m, hm, rfl⟩ := Option.map_eq_some_iff.mp hread
    exact (hsame (.body h m) hahead (by rw [show bodyLength h.headers = some m from hm]; rfl)).elim
  · rename_i hline
    rw [if_neg hline] at hsame
    obtain ⟨k, hadd, rfl⟩ := Option.map_eq_some_iff.mp hread
    obtain ⟨f, hf, hadm, rfl⟩ := (Head.addLine_eq_some_iff _ k hahead.1).mp hadd
    have hadd' := (Head.addLine_eq_some_iff h _ hahead.1).mpr
      ⟨f, hf, ⟨hn.trans_lt hadm.1, hadm.2⟩, rfl⟩
    -- the headers are the same in both
    exact hsame (.headers (h.withField f)) hahead (by rw [hadd', Option.map_some])

theorem leaves {q : HttpParser} (h : Lost g w) (hq : Leaves g w q) :
    ∃ g' w', Rep q g' w' ∧ Lost g' w' := by
  cases hq with
  | same hrep => exact ⟨_, _, hrep, h⟩
  | counted _ hn hrep => exact ⟨_, _, hrep, h.recount hn⟩
  | @skipped k _ r _ _ hbody hrep => exact ⟨_, _, hrep, Progress.Misframed.lost (g := .headers k) hbody r⟩

end Lost

/-! ## Calls -/

/-- The calls the gateway makes on the parser of a connection. -/
inductive ParserCall where
  | append (data : Bytes)
  | parse (out : HttpRequest)

/-- One call, and the status it returns. -/
def HttpParser.call (p : HttpParser) : ParserCall → HttpParser × List ParseStatus
  | .append data => (p.append data, [])
  | .parse out => ((p.parse out).2.1, [(p.parse out).1])

/-- The parser stands for progress that leads nowhere. -/
def HttpParser.Dead (p : HttpParser) : Prop := ∃ g u, Rep p g u ∧ Lost g u

theorem HttpParser.Dead.parse {p : HttpParser} (h : p.Dead) (out : HttpRequest) :
    (p.parse out).1 ≠ .Complete ∧ (p.parse out).2.1.Dead := by
  obtain ⟨g, u, hrep, hlost⟩ := h
  have hsim := parse_sim hrep out
  rcases hres : p.parse out with ⟨_ | _ | _, q, out'⟩
  · rw [hres] at hsim
    obtain ⟨-, g', w, hsil, -, hq⟩ := hsim
    exact ⟨by simp, g', w, hq, hlost.silent hsil⟩
  · -- a request is completed from its body, where nothing that is lost gets to
    rw [hres] at hsim
    obtain ⟨g', w, r, v, hsil, hstep, -, -⟩ := hsim
    obtain ⟨k, n, rfl, -⟩ := Progress.step_some hstep
    exact (hlost.silent hsil).1.elim
  · obtain ⟨g', w, hsil, -, hq⟩ := parse_error hrep hres
    exact ⟨by simp, (hlost.silent hsil).leaves hq⟩

/-! ## Lines that are given up too early -/

/-- Unread input that is given up because it has become too long, although it is the beginning of a line
that would be taken. -/
def GivenUpEarly (g : Progress) (w : Bytes) : Prop :=
  cut crlf w = none ∧ g.limit < w.length ∧
    ∃ line g', Ahead w line ∧ g.readLine line = some g' ∧ ¬ g'.Misframed

namespace GivenUpEarly

variable {g : Progress} {w : Bytes}

theorem inHead (h : GivenUpEarly g w) : g.InHead := by
  obtain ⟨-, -, line, g', -, hread, -⟩ := h
  cases g with
  | requestLine => trivial
  | headers k => trivial
  | body k n => simp [Progress.readLine] at hread

theorem step (h : GivenUpEarly g w) : g.step w = .fail := by
  rw [Progress.step_of_cut_eq_none h.inHead h.1, if_pos h.2.1]

/-- A call that gives up on the line leaves the parser in front of it: without a complete line nothing is
counted or skipped. -/
theorem rep {p q : HttpParser} {g₀ : Progress} {u : Bytes} {out out' : HttpRequest}
    (h : GivenUpEarly g w) (hrep : Rep p g₀ u) (hsil : scanner.Silent g₀ u g w)
    (herr : p.parse out = (.Error, q, out')) : Rep q g w := by
  obtain ⟨g', w', hsil', hfail, hleaves⟩ := parse_error hrep herr
  obtain ⟨rfl, rfl⟩ := hsil.unique hsil' (by simp [scanner_step, h.step])
    (by simp [scanner_step, hfail])
  have hcut := h.1
  cases hleaves with
  | same hq => exact hq
  | counted hline => simp [hline] at hcut
  | skipped hline => simp [hline] at hcut

/-- What the line leads to is a header section that a blank line may end. -/
theorem exists_headers (h : GivenUpEarly g w) :
    ∃ x line k n, w ++ x = line ++ crlf ∧ ¬ crlf <:+: line ∧ g.readLine line = some (.headers k) ∧
      bodyLength k.headers = some n := by
  obtain ⟨hcut, hlong, line, g', ⟨hnot, hahead⟩, hread, hframed⟩ := h
  have hpart : w <+: line ++ crlf := by
    refine hahead.resolve_left fun ⟨r, hr⟩ => ?_
    rw [← hr, cut_crlf r hnot] at hcut
    simp at hcut
  obtain ⟨x, hx⟩ := hpart
  have hg' : ∃ k, g' = .headers k := by
    cases g with
    | requestLine =>
      obtain ⟨k, -, rfl⟩ := Option.map_eq_some_iff.mp hread
      exact ⟨k, rfl⟩
    | headers h =>
      rw [Progress.readLine] at hread
      split at hread
      · -- the blank line is not that long
        rename_i hblank
        have := congrArg List.length hx
        simp only [hblank, Progress.limit, kMaxHeaderBytes, crlf, List.length_append, List.length_nil,
          List.length_cons] at this hlong
        omega
      · obtain ⟨k, -, rfl⟩ := Option.map_eq_some_iff.mp hread
        exact ⟨k, rfl⟩
    | body h n => simp [Progress.readLine] at hread
  obtain ⟨k, rfl⟩ := hg'
  obtain ⟨n, hn⟩ := Option.ne_none_iff_exists'.mp hframed
  exact ⟨x, line, k, n, hx, hnot, hread, hn⟩

end GivenUpEarly

/-- The beginning of a request line, with `n` bytes behind the slash. -/
def openLine (n : ℕ) : Bytes := bytes "GET /" ++ List.replicate n 97

theorem openLine_eq (n : ℕ) :
    ∃ l : RequestLine, openLine n ++ bytes " HTTP/1.1" = l.toBytes := by
  refine ⟨⟨bytes "GET", slash :: List.replicate n 97, bytes "HTTP/1.1", by decide, by decide, rfl, ?_,
    .inl rfl⟩, ?_⟩
  · intro c hc
    rcases List.mem_cons.mp hc with rfl | hc
    · decide
    · rw [List.eq_of_mem_replicate hc]
      decide
  · simp [openLine, RequestLine.toBytes, bytes, slash, sp]

/-- A request that consists of such a line. -/
theorem exists_head_openLine (n : ℕ) :
    ∃ h : RequestHead, h.line.toBytes = openLine n ++ bytes " HTTP/1.1" ∧
      h.toBytes = openLine n ++ bytes " HTTP/1.1" ++ crlf ++ crlf ∧ h.contentLength = 0 := by
  obtain ⟨l, hl⟩ := openLine_eq n
  have hframed : Framed [] := ⟨by simp, by simp, by simp⟩
  refine ⟨⟨l, [], Nat.zero_le _, by simp, hframed⟩, hl.symm, ?_, rfl⟩
  simp [RequestHead.toBytes, fieldBytes, hl]

end ApiGateway.Http
