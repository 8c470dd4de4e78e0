import ApiGateway.Http.Scanner

/-!
# `parse` runs the scanner

`Rep p g u` relates a parser to its progress and its unread input. Each phase of `parse` is matched
with steps of `scanner`; the loop of `parseHeaders` is matched round by round. `parse_sim` puts the
phases together. It also says what is left after an error: `parse` catches the exception, and the
object that remains still stands for the progress made, except that a line may have been counted and the
blank line may have been skipped.
-/

namespace ApiGateway.Http

open Str HttpParser Resumable

/-- The parser stands for progress `g` with unread input `u`. -/
def Rep (p : HttpParser) : Progress → Bytes → Prop
  | .requestLine, u =>
    p.state = .RequestLine ∧ p.consumed = 0 ∧ p.buffer = u ∧
      p.headers = ∅ ∧ p.headerCount = 0 ∧ p.contentLength = 0
  | .headers h, u =>
    p.state = .Headers ∧ (0 < p.consumed ∧ p.consumed ≤ p.buffer.length) ∧
      p.buffer.drop p.consumed = u ∧ p.head = h ∧
      (p.contentLength = 0 ∨ bytes "content-length" ∈ p.headers)
  | .body h n, u =>
    p.state = .Body ∧ (0 < p.consumed ∧ p.consumed ≤ p.buffer.length) ∧
      p.buffer.drop p.consumed = u ∧ p.head = h ∧ p.contentLength = n

/-- The same progress, with another count of header lines. -/
def Progress.recount (n : ℕ) : Progress → Progress
  | .requestLine => .requestLine
  | .headers h => .headers { h with headerCount := n }
  | .body h m => .body { h with headerCount := n } m

/-- A parser that starts on `u`. -/
theorem rep_start (u : Bytes) : Rep { buffer := u } .requestLine u :=
  ⟨rfl, rfl, rfl, rfl, rfl, rfl⟩

/-- Appending input to the buffer appends it to the unread input. -/
theorem Rep.append {p : HttpParser} {g : Progress} {u : Bytes} (h : Rep p g u) (v : Bytes) :
    Rep (p.append v) g (u ++ v) := by
  have hdrop : p.consumed ≤ p.buffer.length →
      (p.buffer ++ v).drop p.consumed = p.buffer.drop p.consumed ++ v :=
    fun hle => List.drop_append_of_le_length hle
  cases g with
  | requestLine =>
    obtain ⟨h1, h2, h3, h4⟩ := h
    exact ⟨h1, h2, by simp [HttpParser.append, h3], h4⟩
  | headers k =>
    obtain ⟨h1, ⟨h2, h3⟩, h4, h5⟩ := h
    refine ⟨h1, ⟨h2, ?_⟩, ?_, h5⟩
    · simp only [HttpParser.append, List.length_append]
      omega
    · rw [← h4]
      exact hdrop h3
  | body k n =>
    obtain ⟨h1, ⟨h2, h3⟩, h4, h5⟩ := h
    refine ⟨h1, ⟨h2, ?_⟩, ?_, h5⟩
    · simp only [HttpParser.append, List.length_append]
      omega
    · rw [← h4]
      exact hdrop h3

/-! ## What the line functions leave alone -/

namespace HttpParser

theorem setTarget_frame (p : HttpParser) (t : Bytes) :
    p.setTarget t = { p with path := (p.setTarget t).path, query := (p.setTarget t).query } := by
  simp only [setTarget]
  split <;> split <;> rfl

theorem analyseRequestLine_frame (p : HttpParser) (line : Bytes) :
    ∃ m pa q v, (p.analyseRequestLine line).1
      = { p with method := m, path := pa, query := q, version := v } := by
  simp only [analyseRequestLine]
  split
  · split_ifs
    · exact ⟨_, _, _, _, rfl⟩
    · exact ⟨_, _, _, _, rfl⟩
    · exact ⟨_, _, _, _, rfl⟩
    · exact ⟨_, _, _, _, rfl⟩
    · rw [setTarget_frame]
      exact ⟨_, _, _, _, rfl⟩
  · exact ⟨_, _, _, _, rfl⟩

theorem addHeader_error_frame {p q : HttpParser} {line : Bytes} {e : ParseError}
    (h : p.addHeader line = (q, .error e)) :
    ∃ n, p.headerCount ≤ n ∧ q = { p with headerCount := n } := by
  simp only [addHeader] at h
  split at h
  · exact ⟨p.headerCount, le_rfl, (Prod.mk.inj h).1.symm⟩
  · split_ifs at h
    · exact ⟨p.headerCount, le_rfl, (Prod.mk.inj h).1.symm⟩
    · exact ⟨p.headerCount + 1, Nat.le_succ _, (Prod.mk.inj h).1.symm⟩
    · exact ⟨p.headerCount + 1, Nat.le_succ _, (Prod.mk.inj h).1.symm⟩
    · simp at h

end HttpParser

/-! ## Lines -/

/-- The request line of a parser that starts is the one its progress reads. -/
theorem ofLine_eq (p : HttpParser) (line : Bytes) (hh : p.headers = ∅) (hc : p.headerCount = 0) :
    match p.analyseRequestLine line with
    | (q, .ok ()) => Head.ofLine line = some q.head
    | (_, .error _) => Head.ofLine line = none := by
  rcases hq : p.analyseRequestLine line with ⟨q, e | ⟨⟩⟩
  · rcases hd : ({} : HttpParser).analyseRequestLine line with ⟨d, e' | ⟨⟩⟩
    · simp only [Head.ofLine, hd]
    · obtain ⟨l, rfl, -⟩ := (analyseRequestLine_ok_iff {} d line).mp hd
      have := (analyseRequestLine_ok_iff p (p.withLine l) _).mpr ⟨l, rfl, rfl⟩
      simp [this] at hq
  · obtain ⟨l, rfl, rfl⟩ := (analyseRequestLine_ok_iff p q line).mp hq
    have hd := (analyseRequestLine_ok_iff {} (withLine {} l) _).mpr ⟨l, rfl, rfl⟩
    simp [Head.ofLine, hd, HttpParser.withLine, HttpParser.head, hh, hc]

/-- A header line adds the same header to a parser and to its progress. -/
theorem addLine_eq (p : HttpParser) {line : Bytes} (hline : ¬ crlf <:+: line) :
    match p.addHeader line with
    | (q, .ok ()) => p.head.addLine line = some q.head
    | (_, .error _) => p.head.addLine line = none := by
  rcases hq : p.addHeader line with ⟨q, e | ⟨⟩⟩
  · rcases hd : p.head.toParser.addHeader line with ⟨d, e' | ⟨⟩⟩
    · simp only [Head.addLine, hd]
    · obtain ⟨f, hf, hadm, -⟩ := (addHeader_ok_iff _ d hline).mp hd
      have := (addHeader_ok_iff p (p.withField f) hline).mpr ⟨f, hf, hadm, rfl⟩
      simp [this] at hq
  · obtain ⟨f, hf, hadm, rfl⟩ := (addHeader_ok_iff p q hline).mp hq
    have hd := (addHeader_ok_iff p.head.toParser (p.head.toParser.withField f) hline).mpr
      ⟨f, hf, hadm, rfl⟩
    simp only [Head.addLine, hd]
    rfl

/-! ## The phases -/

/-- The request-line phase reads one line, or waits, or fails. -/
theorem requestLinePhase_sim {p : HttpParser} {u : Bytes} (h : Rep p .requestLine u) :
    match p.requestLinePhase with
    | (q, .error _) => Progress.requestLine.step u = .fail ∧ Rep q .requestLine u
    | (q, .ok false) => Progress.requestLine.step u = .more ∧ Rep q .requestLine u
    | (q, .ok true) => ∃ k r, Progress.requestLine.step u = .next (.headers k) r none ∧
        Rep q (.headers k) r := by
  obtain ⟨hstate, hcons, rfl, hheaders, hcount, hlen⟩ := h
  rw [requestLinePhase, if_pos hstate, parseRequestLine]
  cases hcut : cut crlf p.buffer with
  | none =>
    have hcut' : cut crlf (p.buffer.drop 0) = none := by simpa using hcut
    rw [findFrom_of_cut_eq_none hcut',
      Progress.step_of_cut_eq_none Progress.inHead_requestLine hcut, Progress.limit]
    by_cases hlong : kMaxRequestLineLen < p.buffer.length
    · simp only [hlong, if_true, true_and]
      exact ⟨hstate, hcons, rfl, hheaders, hcount, hlen⟩
    · simp only [hlong, if_false, true_and]
      exact ⟨hstate, hcons, rfl, hheaders, hcount, hlen⟩
  | some lr =>
    obtain ⟨line, r⟩ := lr
    have hcut' : cut crlf (p.buffer.drop 0) = some (line, r) := by simpa using hcut
    have hdrop : p.buffer.drop (0 + line.length + 2) = r := drop_of_cut hcut'
    have hsize := Progress.length_add_two_le_of_cut hcut
    rw [findFrom_of_cut hcut']
    simp only [substr_of_cut hcut']
    have hofLine := ofLine_eq p line hheaders hcount
    have hframe := analyseRequestLine_frame p line
    rcases hq : p.analyseRequestLine line with ⟨q, e | ⟨⟩⟩
    · rw [hq] at hofLine hframe
      obtain ⟨m, pa, qu, v, rfl⟩ := hframe
      refine ⟨Progress.step_of_readLine_eq_none Progress.inHead_requestLine hcut ?_,
        hstate, hcons, rfl, hheaders, hcount, hlen⟩
      simp [Progress.readLine, hofLine]
    · rw [hq] at hofLine hframe
      obtain ⟨m, pa, qu, v, rfl⟩ := hframe
      refine ⟨_, r, Progress.step_of_readLine Progress.inHead_requestLine hcut ?_, rfl,
        ⟨by simp, ?_⟩, hdrop, rfl, .inl hlen⟩
      · simp only [Progress.readLine, hofLine, Option.map_some]
        rfl
      · have := congrArg List.length (append_of_cut hcut)
        simp only [List.length_append, crlf, List.length_cons, List.length_nil] at this
        simp only
        omega

/-- What the loop over the header lines comes to, from head `h` with unread input `u`: it fails or waits
at some later line, or has found the blank line. -/
def LoopMatches (h : Head) (u : Bytes) : HttpParser × Except ParseError (Option ℕ) → Prop
  | (q, .error _) => ∃ k w, scanner.Silent (.headers h) u (.headers k) w ∧
      Progress.step (.headers k) w = .fail ∧ ∃ n w', Rep q ((Progress.headers k).recount n) w'
  | (q, .ok none) => ∃ k w, scanner.Silent (.headers h) u (.headers k) w ∧
      Progress.step (.headers k) w = .more ∧ Rep q (.headers k) w
  | (q, .ok (some pos)) => ∃ k w r, scanner.Silent (.headers h) u (.headers k) w ∧
      cut crlf w = some ([], r) ∧ Rep { q with consumed := pos } (.headers k) r

theorem LoopMatches.of_step {h k : Head} {u v : Bytes}
    {res : HttpParser × Except ParseError (Option ℕ)}
    (hstep : scanner.step (.headers h) u = .next (.headers k) v none) (hm : LoopMatches k v res) :
    LoopMatches h u res := by
  rcases res with ⟨q, e | _ | pos⟩
  · obtain ⟨k', w, hsil, hrest⟩ := hm
    exact ⟨k', w, .step hstep hsil, hrest⟩
  · obtain ⟨k', w, hsil, hrest⟩ := hm
    exact ⟨k', w, .step hstep hsil, hrest⟩
  · obtain ⟨k', w, r, hsil, hrest⟩ := hm
    exact ⟨k', w, r, .step hstep hsil, hrest⟩

theorem sizeSub_consumed {p : HttpParser} (hle : p.consumed ≤ p.buffer.length) :
    sizeSub p.buffer.length p.consumed = (p.buffer.drop p.consumed).length := by
  rw [sizeSub_of_le hle, List.length_drop]

/-- One round of the loop over a line that is not blank. A header that is refused may have been counted;
behind one that is taken the next round starts. -/
theorem headerLine_sim {p : HttpParser} {h : Head} {u line r : Bytes} (hrep : Rep p (.headers h) u)
    (hcut : cut crlf u = some (line, r)) (hline : line ≠ []) :
    match p.addHeader line with
    | (q, .error _) => Progress.step (.headers h) u = .fail ∧
        ∃ n, h.headerCount ≤ n ∧ Rep q (.headers { h with headerCount := n }) u
    | (q, .ok ()) => ∃ k, Progress.step (.headers h) u = .next (.headers k) r none ∧
        Rep { q with consumed := p.consumed + line.length + 2 } (.headers k) r := by
  obtain ⟨hstate, ⟨hpos, hle⟩, rfl, rfl, hlen⟩ := hrep
  have hnot : ¬ crlf <:+: line := not_infix_of_cut hcut
  have hadd := addLine_eq p hnot
  rcases hq : p.addHeader line with ⟨q, e | ⟨⟩⟩
  · rw [hq] at hadd
    obtain ⟨n, hn, rfl⟩ := addHeader_error_frame hq
    refine ⟨?_, n, hn, hstate, ⟨hpos, hle⟩, rfl, rfl, hlen⟩
    exact Progress.step_of_readLine_eq_none (Progress.inHead_headers _) hcut
      (by simp [Progress.readLine, hline, hadd])
  · rw [hq] at hadd
    obtain ⟨f, -, -, rfl⟩ := (addHeader_ok_iff p q hnot).mp hq
    have hdrop : p.buffer.drop (p.consumed + line.length + 2) = r := drop_of_cut hcut
    have hbound : p.consumed + line.length + 2 ≤ p.buffer.length := by
      have hl := congrArg List.length (append_of_cut hcut)
      simp only [List.length_append, List.length_drop, crlf, List.length_cons,
        List.length_nil] at hl
      omega
    refine ⟨(p.withField f).head, ?_, hstate, ⟨by simp, hbound⟩, hdrop, rfl, ?_⟩
    · exact Progress.step_of_readLine (Progress.inHead_headers _) hcut
        (by simp [Progress.readLine, hline, hadd])
    · exact hlen.imp_right fun hmem => Finmap.mem_insert.mpr (.inr hmem)

/-- What a call that fails at progress `g` with unread input `w` leaves of the parser. -/
inductive Leaves : Progress → Bytes → HttpParser → Prop
  | same {g : Progress} {w : Bytes} {q : HttpParser} : Rep q g w → Leaves g w q
  | counted {h : Head} {w line r : Bytes} {q : HttpParser} {n : ℕ} :
      cut crlf w = some (line, r) → h.headerCount ≤ n →
      Rep q (.headers { h with headerCount := n }) w → Leaves (.headers h) w q
  | skipped {h : Head} {w r : Bytes} {q : HttpParser} :
      cut crlf w = some ([], r) → bodyLength h.headers = none → Rep q (.headers h) r →
      Leaves (.headers h) w q

theorem Leaves.exists_rep {h : Head} {w : Bytes} {q : HttpParser} (hq : Leaves (.headers h) w q) :
    ∃ n w', Rep q ((Progress.headers h).recount n) w' := by
  cases hq with
  | same hrep => exact ⟨h.headerCount, w, hrep⟩
  | counted _ _ hrep => exact ⟨_, w, hrep⟩
  | skipped _ _ hrep => exact ⟨h.headerCount, _, hrep⟩

/-- **One round of the loop over the header lines.** It fails, waits for more, finds the blank line, or goes on
behind a header line, with less to read. -/
theorem parseHeadersLoop_round (fuel : ℕ) {p : HttpParser} {h : Head} {u : Bytes}
    (hrep : Rep p (.headers h) u) :
    (∃ q e, parseHeadersLoop (fuel + 1) p p.consumed = (q, .error e) ∧
      Progress.step (.headers h) u = .fail ∧ (q = p ∨ ∃ line r n, cut crlf u = some (line, r) ∧
        h.headerCount ≤ n ∧ Rep q (.headers { h with headerCount := n }) u)) ∨
    (parseHeadersLoop (fuel + 1) p p.consumed = (p, .ok none) ∧
      Progress.step (.headers h) u = .more) ∨
    (∃ pos r, parseHeadersLoop (fuel + 1) p p.consumed = (p, .ok (some pos)) ∧
      cut crlf u = some ([], r) ∧ Rep { p with consumed := pos } (.headers h) r) ∨
    ∃ p' k r, parseHeadersLoop (fuel + 1) p p.consumed = parseHeadersLoop fuel p' p'.consumed ∧
      Progress.step (.headers h) u = .next (.headers k) r none ∧ r.length < u.length ∧
      Rep p' (.headers k) r := by
  have hrep' := hrep
  obtain ⟨hstate, ⟨hpos, hle⟩, rfl, rfl, hlen⟩ := hrep
  rw [parseHeadersLoop]
  cases hcut : cut crlf (p.buffer.drop p.consumed) with
  | none =>
    have hstep := Progress.step_of_cut_eq_none (Progress.inHead_headers p.head) hcut
    rw [Progress.limit] at hstep
    rw [findFrom_of_cut_eq_none hcut, sizeSub_consumed hle]
    by_cases hlong : kMaxHeaderBytes < (p.buffer.drop p.consumed).length
    · rw [if_pos hlong] at hstep
      exact .inl ⟨p, .headersTooLarge, if_pos hlong, hstep, .inl rfl⟩
    · rw [if_neg hlong] at hstep
      exact .inr (.inl ⟨if_neg hlong, hstep⟩)
  | some lr =>
    obtain ⟨line, r⟩ := lr
    have hsize := Progress.length_add_two_le_of_cut hcut
    rw [findFrom_of_cut hcut]
    simp only [substr_of_cut hcut]
    by_cases hline : line = []
    · subst hline
      have hdrop : p.buffer.drop (p.consumed + 0 + 2) = r := drop_of_cut hcut
      simp only [List.length_nil, Nat.add_zero, if_true] at hdrop ⊢
      rw [List.length_drop] at hsize
      have hbound : p.consumed + 2 ≤ p.buffer.length := by omega
      exact .inr (.inr (.inl ⟨_, r, rfl, rfl, hstate, ⟨by simp, hbound⟩, hdrop, rfl, hlen⟩))
    · have hne : ¬ p.consumed + line.length = p.consumed := by
        have := List.length_pos_iff.mpr hline
        omega
      rw [if_neg hne]
      have hround := headerLine_sim hrep' hcut hline
      revert hround
      rcases p.addHeader line with ⟨q, e | ⟨⟩⟩
      · rintro ⟨hfail, n, hn, hq⟩
        exact .inl ⟨q, e, rfl, hfail, .inr ⟨line, r, n, rfl, hn, hq⟩⟩
      · rintro ⟨k, hstep, hnext⟩
        exact .inr (.inr (.inr ⟨_, k, r, rfl, hstep, by omega, hnext⟩))

/-- The loop over the header lines. Its invariant is `Rep`: `pos` is `consumed` at the start of every
round, and the unread input shrinks from round to round, so that the fuel lasts. -/
theorem parseHeadersLoop_sim (fuel : ℕ) {p : HttpParser} {h : Head} {u : Bytes}
    (hrep : Rep p (.headers h) u) (hfuel : u.length < fuel) :
    LoopMatches h u (parseHeadersLoop fuel p p.consumed) := by
  induction fuel generalizing p h u with
  | zero => omega
  | succ fuel ih =>
    rcases parseHeadersLoop_round fuel hrep with ⟨q, e, heq, hfail, hq⟩ | ⟨heq, hmore⟩ |
      ⟨pos, r, heq, hcut, hq⟩ | ⟨p', k, r, heq, hstep, hlt, hnext⟩
    · rw [heq]
      refine ⟨h, u, .refl _ _, hfail, ?_⟩
      rcases hq with rfl | ⟨line, r, n, -, -, hq⟩
      · exact ⟨h.headerCount, u, hrep⟩
      · exact ⟨n, u, hq⟩
    · rw [heq]
      exact ⟨h, u, .refl _ _, hmore, hrep⟩
    · rw [heq]
      exact ⟨h, u, r, .refl _ _, hcut, hq⟩
    · rw [heq]
      exact (ih hnext (by omega)).of_step hstep

/-- Where the loop fails, a header that has been refused may have been counted. -/
theorem parseHeadersLoop_error (fuel : ℕ) {p q : HttpParser} {h : Head} {u : Bytes} {e : ParseError}
    (hrep : Rep p (.headers h) u) (hfuel : u.length < fuel)
    (herr : parseHeadersLoop fuel p p.consumed = (q, .error e)) :
    ∃ k w, scanner.Silent (.headers h) u (.headers k) w ∧
      Progress.step (.headers k) w = .fail ∧ Leaves (.headers k) w q := by
  induction fuel generalizing p h u with
  | zero => omega
  | succ fuel ih =>
    rcases parseHeadersLoop_round fuel hrep with ⟨q', e', heq, hfail, hq⟩ | ⟨heq, -⟩ |
      ⟨pos, r, heq, -⟩ | ⟨p', k, r, heq, hstep, hlt, hnext⟩
    · obtain ⟨rfl, -⟩ := Prod.mk.inj (heq.symm.trans herr)
      refine ⟨h, u, .refl _ _, hfail, ?_⟩
      rcases hq with rfl | ⟨line, r, n, hcut, hn, hq⟩
      · exact .same hrep
      · exact .counted hcut hn hq
    · simp [heq] at herr
    · simp [heq] at herr
    · obtain ⟨k', w, hsil, hrest⟩ := ih hnext (by omega) (heq.symm.trans herr)
      exact ⟨k', w, .step hstep hsil, hrest⟩

/-- **What the headers phase does.** It fails, at a line or at the framing that the blank line completes, waits
for more, or goes on to the body. -/
theorem headersPhase_cases {p : HttpParser} {h : Head} {u : Bytes} (hrep : Rep p (.headers h) u) :
    (∃ q e, p.headersPhase = (q, .error e) ∧ ∃ k w, scanner.Silent (.headers h) u (.headers k) w ∧
      Progress.step (.headers k) w = .fail ∧ Leaves (.headers k) w q) ∨
    (∃ q, p.headersPhase = (q, .ok false) ∧ ∃ k w, scanner.Silent (.headers h) u (.headers k) w ∧
      Progress.step (.headers k) w = .more ∧ Rep q (.headers k) w) ∨
    ∃ q, p.headersPhase = (q, .ok true) ∧ ∃ k n w, scanner.Silent (.headers h) u (.body k n) w ∧
      Rep q (.body k n) w := by
  have hfuel : u.length < p.buffer.length + 1 := by
    obtain ⟨-, -, rfl, -⟩ := hrep
    rw [List.length_drop]
    omega
  have hloop := parseHeadersLoop_sim (p.buffer.length + 1) hrep hfuel
  rw [headersPhase, if_pos hrep.1, parseHeaders]
  rcases hres : parseHeadersLoop (p.buffer.length + 1) p p.consumed with ⟨q, e | _ | pos⟩
  · exact .inl ⟨q, e, rfl, parseHeadersLoop_error _ hrep hfuel hres⟩
  · rw [hres] at hloop
    exact .inr (.inl ⟨q, rfl, hloop⟩)
  · rw [hres] at hloop
    obtain ⟨k, w, r, hsil, hcut, hstate, hbounds, hdrop, rfl, hlen⟩ := hloop
    have hframing := selectFraming_spec { q with consumed := pos } hlen
    cases hbody : bodyLength q.headers with
    | none =>
      simp only [hbody] at hframing
      obtain ⟨n, c, e, hsel, hn⟩ := hframing
      simp only [hsel]
      refine .inl ⟨_, e, rfl, _, w, hsil, ?_, .skipped hcut hbody ⟨hstate, hbounds, hdrop, rfl, hn⟩⟩
      exact Progress.step_of_readLine_eq_none (Progress.inHead_headers _) hcut
        (by simp [Progress.readLine, HttpParser.head, hbody])
    | some n =>
      simp only [hbody] at hframing
      simp only [hframing]
      refine .inr (.inr ⟨_, rfl, q.head, n, r, hsil.trans (.step ?_ (.refl _ _)), rfl, hbounds, hdrop, rfl,
        rfl⟩)
      exact Progress.step_of_readLine (Progress.inHead_headers _) hcut
        (by simp [Progress.readLine, HttpParser.head, hbody])

/-- The headers phase reads lines up to the blank one, and decides on the framing. -/
theorem headersPhase_sim {p : HttpParser} {h : Head} {u : Bytes} (hrep : Rep p (.headers h) u) :
    match p.headersPhase with
    | (q, .error _) => ∃ g w, scanner.Silent (.headers h) u g w ∧ g.step w = .fail ∧
        ∃ n w', Rep q (g.recount n) w'
    | (q, .ok false) => ∃ g w, scanner.Silent (.headers h) u g w ∧ g.step w = .more ∧ Rep q g w
    | (q, .ok true) => ∃ k n w, scanner.Silent (.headers h) u (.body k n) w ∧
        Rep q (.body k n) w := by
  rcases headersPhase_cases hrep with ⟨q, e, heq, k, w, hsil, hfail, hq⟩ | ⟨q, heq, k, w, hrest⟩ |
    ⟨q, heq, hrest⟩
  · rw [heq]
    exact ⟨_, w, hsil, hfail, hq.exists_rep⟩
  · rw [heq]
    exact ⟨_, w, hrest⟩
  · rw [heq]
    exact hrest

/-- The body phase waits for the announced length, or completes the request. -/
theorem bodyPhase_sim {p : HttpParser} {h : Head} {n : ℕ} {u : Bytes} (hrep : Rep p (.body h n) u)
    (out : HttpRequest) :
    match p.bodyPhase out with
    | none => Progress.step (.body h n) u = .more
    | some (q, out') => ∃ r w, Progress.step (.body h n) u = .next .requestLine w (some r) ∧
        q.finish out' = ({ buffer := w }, { r with requestId := out.requestId }) := by
  obtain ⟨hstate, ⟨hpos, hle⟩, rfl, rfl, rfl⟩ := hrep
  rw [bodyPhase, if_pos hstate, sizeSub_consumed hle]
  by_cases hshort : (p.buffer.drop p.consumed).length < p.contentLength
  · simp only [hshort, if_true, Progress.step]
  · simp only [hshort, if_false, Progress.step]
    exact ⟨_, _, rfl, by simp [finish, Head.request, HttpParser.head, substr]⟩

/-! ## A whole call -/

/-- What a call of `parse` does in terms of the scanner: `status`, the parser and the request after the
call, from progress `g` with unread input `u`. -/
def Matches (g : Progress) (u : Bytes) (out : HttpRequest) :
    ParseStatus × HttpParser × HttpRequest → Prop
  | (.Error, q, out') => out' = out ∧
      ∃ g' w, scanner.Silent g u g' w ∧ g'.step w = .fail ∧ ∃ n w', Rep q (g'.recount n) w'
  | (.Incomplete, q, out') => out' = out ∧
      ∃ g' w, scanner.Silent g u g' w ∧ g'.step w = .more ∧ Rep q g' w
  | (.Complete, q, out') => ∃ g' w r v, scanner.Silent g u g' w ∧
      g'.step w = .next .requestLine v (some r) ∧ q = { buffer := v } ∧
      out' = { r with requestId := out.requestId }

theorem Matches.of_silent {g g' : Progress} {u u' : Bytes} {out : HttpRequest}
    {res : ParseStatus × HttpParser × HttpRequest} (hsil : scanner.Silent g u g' u')
    (h : Matches g' u' out res) : Matches g u out res := by
  rcases res with ⟨_ | _ | _, q, out'⟩
  · obtain ⟨rfl, k, w, hw, hrest⟩ := h
    exact ⟨rfl, k, w, hsil.trans hw, hrest⟩
  · obtain ⟨k, w, r, v, hw, hrest⟩ := h
    exact ⟨k, w, r, v, hsil.trans hw, hrest⟩
  · obtain ⟨rfl, k, w, hw, hrest⟩ := h
    exact ⟨rfl, k, w, hsil.trans hw, hrest⟩

/-- The end of `parse`, from a parser in its body. -/
theorem body_matches {p : HttpParser} {h : Head} {n : ℕ} {u : Bytes} (hrep : Rep p (.body h n) u)
    (out : HttpRequest) :
    Matches (.body h n) u out
      (match p.bodyPhase out with
        | none => (.Incomplete, p, out)
        | some (q, out') => (.Complete, q.finish out')) := by
  have hsim := bodyPhase_sim hrep out
  revert hsim
  rcases p.bodyPhase out with _ | ⟨q, out'⟩
  · exact fun hmore => ⟨rfl, _, u, .refl _ _, hmore, hrep⟩
  · rintro ⟨r, w, hstep, hfin⟩
    simp only [hfin]
    exact ⟨_, u, r, w, .refl _ _, hstep, rfl, rfl⟩

/-- The end of `parse`, from a parser in its headers. -/
theorem headers_matches {p : HttpParser} {h : Head} {u : Bytes} (hrep : Rep p (.headers h) u)
    (out : HttpRequest) :
    Matches (.headers h) u out
      (match p.headersPhase with
        | (q, .error _) => (.Error, q, out)
        | (q, .ok false) => (.Incomplete, q, out)
        | (q, .ok true) =>
          match q.bodyPhase out with
          | none => (.Incomplete, q, out)
          | some (q, out') => (.Complete, q.finish out')) := by
  have hsim := headersPhase_sim hrep
  revert hsim
  rcases p.headersPhase with ⟨q, e | _ | _⟩
  · exact fun hfail => ⟨rfl, hfail⟩
  · exact fun ⟨g, w, hsil, hmore, hq⟩ => ⟨rfl, g, w, hsil, hmore, hq⟩
  · exact fun ⟨k, n, w, hsil, hq⟩ => (body_matches hq out).of_silent hsil

/-- **`parse` runs the scanner to its next result.** -/
theorem parse_sim {p : HttpParser} {g : Progress} {u : Bytes} (hrep : Rep p g u)
    (out : HttpRequest) : Matches g u out (p.parse out) := by
  cases g with
  | requestLine =>
    have hsim := requestLinePhase_sim hrep
    rw [parse]
    revert hsim
    rcases p.requestLinePhase with ⟨q, e | _ | _⟩
    · exact fun ⟨hfail, hq⟩ => ⟨rfl, _, u, .refl _ _, hfail, 0, u, hq⟩
    · exact fun ⟨hmore, hq⟩ => ⟨rfl, _, u, .refl _ _, hmore, hq⟩
    · exact fun ⟨k, r, hstep, hq⟩ => (headers_matches hq out).of_silent (.step hstep (.refl _ _))
  | headers h =>
    have hskip : p.requestLinePhase = (p, .ok true) := by
      rw [requestLinePhase, if_neg (by simp [hrep.1])]
    rw [parse, hskip]
    exact headers_matches hrep out
  | body h n =>
    have hskip : p.requestLinePhase = (p, .ok true) := by
      rw [requestLinePhase, if_neg (by simp [hrep.1])]
    have hskip' : p.headersPhase = (p, .ok true) := by
      rw [headersPhase, if_neg (by simp [hrep.1])]
    rw [parse, hskip]
    simp only [hskip']
    exact body_matches hrep out

/-- What a call of `parse` returns whose silent run ends at `(g, w)`. -/
def EndsAs (g : Progress) (w : Bytes) (out : HttpRequest) :
    ParseStatus × HttpParser × HttpRequest → Prop
  | (.Error, _, out') => g.step w = .fail ∧ out' = out
  | (.Incomplete, q, out') => g.step w = .more ∧ out' = out ∧ Rep q g w
  | (.Complete, q, out') => ∃ r v, g.step w = .next .requestLine v (some r) ∧
      q = { buffer := v } ∧ out' = { r with requestId := out.requestId }

/-- A call has one silent run to its end. -/
theorem Matches.at_end {g g' : Progress} {u w : Bytes} {out : HttpRequest}
    {res : ParseStatus × HttpParser × HttpRequest} (h : Matches g u out res)
    (hsil : scanner.Silent g u g' w) (hend : ∀ k v, g'.step w ≠ .next k v none) :
    EndsAs g' w out res := by
  rcases res with ⟨_ | _ | _, q, out'⟩
  · obtain ⟨hout, k, x, hsil', hmore, hq⟩ := h
    obtain ⟨rfl, rfl⟩ := hsil'.unique hsil (by simp [scanner_step, hmore]) hend
    exact ⟨hmore, hout, hq⟩
  · obtain ⟨k, x, r, v, hsil', hstep, hq, hout⟩ := h
    obtain ⟨rfl, rfl⟩ := hsil'.unique hsil (by simp [scanner_step, hstep]) hend
    exact ⟨r, v, hstep, hq, hout⟩
  · obtain ⟨hout, k, x, hsil', hfail, -⟩ := h
    obtain ⟨rfl, rfl⟩ := hsil'.unique hsil (by simp [scanner_step, hfail]) hend
    exact ⟨hfail, hout⟩

theorem parse_complete_of_silent {p : HttpParser} {g g' : Progress} {u w v : Bytes} {r : HttpRequest}
    (hrep : Rep p g u) (hsil : scanner.Silent g u g' w)
    (hstep : g'.step w = .next .requestLine v (some r)) (out : HttpRequest) :
    p.parse out = (.Complete, { buffer := v }, { r with requestId := out.requestId }) := by
  have hres := (parse_sim hrep out).at_end hsil (by simp [hstep])
  revert hres
  rcases p.parse out with ⟨_ | _ | _, q, out'⟩
  · simp [EndsAs, hstep]
  · rintro ⟨r', v', hstep', rfl, rfl⟩
    rw [hstep] at hstep'
    obtain ⟨-, rfl, hr⟩ := Step.next.inj hstep'
    rw [Option.some.inj hr]
  · simp [EndsAs, hstep]

theorem parse_error_of_silent {p : HttpParser} {g g' : Progress} {u w : Bytes} (hrep : Rep p g u)
    (hsil : scanner.Silent g u g' w) (hfail : g'.step w = .fail) (out : HttpRequest) :
    ∃ q, p.parse out = (.Error, q, out) := by
  have hres := (parse_sim hrep out).at_end hsil (by simp [hfail])
  revert hres
  rcases p.parse out with ⟨_ | _ | _, q, out'⟩
  · simp [EndsAs, hfail]
  · simp [EndsAs, hfail]
  · rintro ⟨-, rfl⟩
    exact ⟨q, rfl⟩

end ApiGateway.Http
