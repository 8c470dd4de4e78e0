import ApiGateway.Http.Reset

/-!
# Stale lengths

After `reset` in the middle of a body, the announced length of that body is still there, and so it is while the
next head is read: only a head that announces a length itself overwrites it. Up to the end of a head, `parse` does
not look at it. So a parser with a stale length reads a head as it does without (`parse_stale`), and only where the
body ends can be another place.

With this the results about errors extend to every parser that calls lead to: an error is final unless a line has
been given up too early (`error_final_iff`).
-/

namespace ApiGateway.Http

open Str HttpParser Resumable

/-! ## Reading a head with a stale length -/

namespace HttpParser

/-- The parser has the property but for the announced length and the flag that goes with it. -/
def Stale (P : HttpParser → Prop) (p : HttpParser) : Prop := ∃ b n, P { p with chunked := b, contentLength := n }

theorem Stale.of {P : HttpParser → Prop} {p : HttpParser} (h : P p) : Stale P p := ⟨p.chunked, p.contentLength, h⟩

theorem Stale.with_framing {P : HttpParser → Prop} {p : HttpParser} (h : P p) (b : Bool) (n : ℕ) :
    Stale P { p with chunked := b, contentLength := n } := ⟨p.chunked, p.contentLength, h⟩

theorem analyseRequestLine_framing (p : HttpParser) (b : Bool) (n : ℕ) (line : Bytes) :
    analyseRequestLine { p with chunked := b, contentLength := n } line
      = ({ (p.analyseRequestLine line).1 with chunked := b, contentLength := n }, (p.analyseRequestLine line).2) := by
  have htarget : ∀ (p : HttpParser) target, setTarget { p with chunked := b, contentLength := n } target
      = { p.setTarget target with chunked := b, contentLength := n } := by
    intro p target
    simp only [setTarget]
    split
    · split
      · rfl
      · rfl
    · split
      · rfl
      · rfl
  simp only [analyseRequestLine]
  split
  · split_ifs
    · rfl
    · rfl
    · rfl
    · rfl
    · rw [← htarget]
  · rfl

theorem requestLinePhase_framing (p : HttpParser) (b : Bool) (n : ℕ) :
    requestLinePhase { p with chunked := b, contentLength := n }
      = ({ p.requestLinePhase.1 with chunked := b, contentLength := n }, p.requestLinePhase.2) := by
  simp only [requestLinePhase, parseRequestLine]
  split
  · cases findFrom p.buffer crlf 0 with
    | none =>
      simp only
      split_ifs
      · rfl
      · rfl
    | some eol =>
      simp only [analyseRequestLine_framing]
      rcases p.analyseRequestLine (substr p.buffer 0 (eol - 0)) with ⟨q, e | ⟨⟩⟩
      · rfl
      · rfl
  · rfl

end HttpParser

/-- What a call does behind the request line, with a stale length. -/
theorem parseBehindLine_stale {p : HttpParser} {b : Bool} {n : ℕ} {h : Head} {u : Bytes}
    (hrep : Rep p (.headers h) u) (out : HttpRequest) :
    (∃ status q b' n', status ≠ .Complete ∧ p.parseBehindLine out = (status, q, out) ∧
      parseBehindLine { p with chunked := b, contentLength := n } out
        = (status, { q with chunked := b', contentLength := n' }, out)) ∨
    ∃ k m w q, scanner.Silent (.headers h) u (.body k m) w ∧ Stale (Rep · (.body k m) w) q ∧ q.buffer = p.buffer ∧
      parseBehindLine { p with chunked := b, contentLength := n } out = q.parseBehindLine out := by
  obtain ⟨hres, b', n', hq, -⟩ := headersPhase_framing p b n
  have hbuffer := headersPhase_buffer p
  simp only [parseBehindLine]
  revert hres hq hbuffer
  rcases headersPhase { p with chunked := b, contentLength := n } with ⟨q', res⟩
  rcases headersPhase_cases hrep with ⟨q, e, hphase, -⟩ | ⟨q, hphase, -⟩ | ⟨q, hphase, k, m, w, hsil, hbody⟩
  · rw [hphase]
    rintro rfl rfl -
    exact .inl ⟨.Error, q, b', n', by simp, rfl, rfl⟩
  · rw [hphase]
    rintro rfl rfl -
    exact .inl ⟨.Incomplete, q, b', n', by simp, rfl, rfl⟩
  · rw [hphase]
    rintro rfl rfl hbuffer
    refine .inr ⟨k, m, w, _, hsil, .with_framing hbody b' n', hbuffer, ?_⟩
    rw [headersPhase, if_neg (by simp [hbody.1])]

/-- **Up to the body, a stale length does not matter.** A call that stops before it does the same with any announced
length. Another call goes on as one on a parser in its body. -/
theorem parse_stale {p : HttpParser} {b : Bool} {n : ℕ} {g : Progress} {u : Bytes} (hrep : Rep p g u)
    (out : HttpRequest) :
    (∃ status q b' n', status ≠ .Complete ∧ p.parse out = (status, q, out) ∧
      parse { p with chunked := b, contentLength := n } out
        = (status, { q with chunked := b', contentLength := n' }, out)) ∨
    ∃ k m w q, scanner.Silent g u (.body k m) w ∧ Stale (Rep · (.body k m) w) q ∧ q.buffer = p.buffer ∧
      parse { p with chunked := b, contentLength := n } out = q.parse out := by
  have hbody : ∀ {q : HttpParser} {k m w}, Stale (Rep · (.body k m) w) q → q.parseBehindLine out = q.parse out := by
    rintro q k m w ⟨b', n', hq⟩
    rw [parse_eq, requestLinePhase, if_neg (by simp [show q.state = .Body from hq.1])]
  cases g with
  | requestLine =>
    have hsim := requestLinePhase_sim hrep
    have hbuffer := requestLinePhase_buffer p
    rw [parse_eq, parse_eq, requestLinePhase_framing p b n]
    revert hsim hbuffer
    rcases p.requestLinePhase with ⟨q, e | _ | _⟩
    · exact fun _ _ => .inl ⟨.Error, q, b, n, by simp, rfl, rfl⟩
    · exact fun _ _ => .inl ⟨.Incomplete, q, b, n, by simp, rfl, rfl⟩
    · rintro ⟨k, r, hstep, hq⟩ hbuffer
      refine (parseBehindLine_stale hq out).imp_right ?_
      rintro ⟨k', m, w, q', hsil, hq', hbuffer', heq⟩
      exact ⟨k', m, w, q', .step hstep hsil, hq', hbuffer'.trans hbuffer, heq.trans (hbody hq')⟩
  | headers h =>
    have hskip := requestLinePhase_of_headers hrep
    rw [parse_eq, parse_eq, requestLinePhase_framing p b n, hskip]
    refine (parseBehindLine_stale hrep out).imp_right ?_
    rintro ⟨k, m, w, q, hsil, hq, hbuffer, heq⟩
    exact ⟨k, m, w, q, hsil, hq, hbuffer, heq.trans (hbody hq)⟩
  | body h m => exact .inr ⟨h, m, u, _, .refl _ _, .with_framing hrep b n, rfl, rfl⟩

/-- A call on a parser in its body waits for more, or completes the request. -/
theorem parse_body_stale {q : HttpParser} {k : Head} {m : ℕ} {w : Bytes} (hq : Stale (Rep · (.body k m) w) q)
    (out : HttpRequest) :
    (w.length < q.contentLength ∧ q.parse out = (.Incomplete, q, out)) ∨
      (q.contentLength ≤ w.length ∧ q.parse out = (.Complete, { buffer := w.drop q.contentLength },
        { k.request (w.take q.contentLength) with requestId := out.requestId })) := by
  obtain ⟨b, n, hstate, ⟨hpos, hle⟩, hdrop, hhead, -⟩ := hq
  have hrep : Rep q (.body k q.contentLength) w := ⟨hstate, ⟨hpos, hle⟩, hdrop, hhead, rfl⟩
  rcases lt_or_ge w.length q.contentLength with hlt | hge
  · refine .inl ⟨hlt, ?_⟩
    have hend := (parse_sim hrep out).at_end (.refl _ _) (by simp [Progress.step, hlt])
    have hcall : (q.parse out).2 = (q, out) ∨ (q.parse out).1 ≠ .Incomplete := by
      rw [parse_eq, requestLinePhase, if_neg (by simp [show q.state = .Body from hstate])]
      simp only [parseBehindLine]
      rw [headersPhase, if_neg (by simp [show q.state = .Body from hstate])]
      simp only
      cases q.bodyPhase out with
      | none => exact .inl rfl
      | some res => exact .inr (by simp)
    revert hend hcall
    rcases q.parse out with ⟨_ | _ | _, q', out'⟩
    · simp [EndsAs]
    · simp [EndsAs, Progress.step, hlt]
    · simp [EndsAs, Progress.step, hlt]
  · refine .inr ⟨hge, parse_complete_of_silent hrep (.refl _ _) ?_ out⟩
    rw [Progress.step, if_neg (not_lt.mpr hge)]

/-! ## The parsers that calls lead to -/

theorem HttpParser.Stale.append_onTrack {p : HttpParser} (h : p.Stale OnTrack) (c : Bytes) :
    (p.append c).Stale OnTrack := by
  obtain ⟨b, n, h⟩ := h
  exact ⟨b, n, h.append c⟩

theorem HttpParser.Stale.append_dead {p : HttpParser} (h : p.Stale Dead) (c : Bytes) : (p.append c).Stale Dead := by
  obtain ⟨b, n, g, u, hrep, hlost⟩ := h
  exact ⟨b, n, g, u ++ c, hrep.append c, hlost.append c⟩

/-- A parser that leads nowhere does not complete a request, whatever length has been left behind. -/
theorem HttpParser.Stale.parse_dead {p : HttpParser} (h : p.Stale Dead) (out : HttpRequest) :
    (p.parse out).1 ≠ .Complete ∧ (p.parse out).2.1.Stale Dead := by
  obtain ⟨b, n, g, u, hrep, hlost⟩ := h
  rcases @parse_stale _ p.chunked p.contentLength _ _ hrep out with
    ⟨status, q, b', n', hstatus, hparse, hstale⟩ | ⟨k, m, w, q, hsil, -⟩
  · have hdead := (Dead.parse ⟨g, u, hrep, hlost⟩ out).2
    rw [hparse] at hdead
    have hp : p.parse out = (status, { q with chunked := b', contentLength := n' }, out) := hstale
    rw [hp]
    exact ⟨hstatus, .with_framing hdead b' n'⟩
  · exact (hlost.silent hsil).1.elim

/-- **A lost parser never completes a request.** -/
theorem HttpParser.Stale.run_dead {p : HttpParser} (h : p.Stale Dead) (calls : List ParserCall) :
    ParseStatus.Complete ∉ (Reactive.run HttpParser.call p calls).2 := by
  have hstep : ∀ (q : HttpParser) statuses c, q.Stale Dead ∧ ParseStatus.Complete ∉ statuses →
      (q.call c).1.Stale Dead ∧ ParseStatus.Complete ∉ statuses ++ (q.call c).2 := by
    rintro q statuses c ⟨hq, hnot⟩
    cases c with
    | append data =>
      refine ⟨hq.append_dead data, ?_⟩
      simpa [HttpParser.call] using hnot
    | parse out =>
      obtain ⟨hstatus, hdead⟩ := hq.parse_dead out
      refine ⟨hdead, ?_⟩
      simp only [HttpParser.call, List.mem_append, List.mem_singleton, not_or]
      exact ⟨hnot, hstatus.symm⟩
  exact (Reactive.run_invariant (I := fun q statuses => q.Stale Dead ∧ ParseStatus.Complete ∉ statuses)
    ⟨h, List.not_mem_nil⟩ hstep calls).2

/-- **What has been read of a head**, in every state that calls of `append`, `parse` and `reset` lead to. -/
theorem Used.stale {R : HttpParser → Prop} {p : HttpParser} (h : Used R p) : p.Stale OnTrack ∨ p.Stale Dead := by
  induction h with
  | fresh => exact .inl (.of (onTrack_start []))
  | append data _ ih => exact ih.imp (fun h => h.append_onTrack data) fun h => h.append_dead data
  | @parse p out _ ih =>
    rcases ih with ⟨b, n, htrack⟩ | hdead
    · obtain ⟨g, u, hrep, hsil⟩ := htrack
      rcases @parse_stale _ p.chunked p.contentLength _ _ hrep out with
        ⟨status, q, b', n', -, hparse, hstale⟩ | ⟨k, m, w, q, hsil', hq, hbuffer, heq⟩
      · have hp : p.parse out = (status, { q with chunked := b', contentLength := n' }, out) := hstale
        have hnext := OnTrack.parse ⟨g, u, hrep, hsil⟩ out
        rw [hparse] at hnext
        rw [hp]
        exact hnext.imp (fun h => .with_framing h b' n') fun h => .with_framing h.2.1 b' n'
      · have hp : p.parse out = q.parse out := heq
        rw [hp]
        rcases parse_body_stale hq out with ⟨-, hmore⟩ | ⟨-, hdone⟩
        · rw [hmore]
          obtain ⟨b', n', hrep'⟩ := hq
          exact .inl ⟨b', n', _, w, hrep', (show q.buffer = p.buffer from hbuffer) ▸ hsil.trans hsil'⟩
        · rw [hdone]
          exact .inl (.of (onTrack_start _))
    · exact .inr (hdead.parse_dead out).2
  | reset _ _ _ => exact .inl ⟨false, 0, .requestLine, [], ⟨rfl, rfl, rfl, rfl, rfl, rfl⟩, .refl _ _⟩

/-- A completed request is one that the buffer begins with; its body has the length that is pending, which is the
announced one unless `reset` has left another. -/
theorem Used.completes {R : HttpParser → Prop} {p q : HttpParser} {out r : HttpRequest} (h : Used R p)
    (hparse : p.parse out = (.Complete, q, r)) :
    ∃ (hd : RequestHead) (body : Bytes), p.buffer = hd.toBytes ++ body ++ q.buffer ∧
      r = { hd.request body with requestId := out.requestId } := by
  rcases h.stale with ⟨b, n, g, u, hrep, hsil⟩ | hdead
  · rcases @parse_stale _ p.chunked p.contentLength _ _ hrep out with
      ⟨status, q', b', n', hstatus, -, hstale⟩ | ⟨k, m, w, q', hsil', hq, hbuffer, heq⟩
    · exact absurd (congrArg Prod.fst (hstale.symm.trans hparse)) hstatus
    · have hq' : q'.parse out = (.Complete, q, r) := heq.symm.trans hparse
      rcases parse_body_stale hq out with ⟨-, hmore⟩ | ⟨-, hdone⟩
      · simp [hmore] at hq'
      · rw [hdone] at hq'
        simp only [Prod.mk.injEq, true_and] at hq'
        obtain ⟨rfl, rfl⟩ := hq'
        obtain ⟨hd, hbytes, hk, -⟩ := RequestHead.exists_of_silent (hsil.trans hsil')
        refine ⟨hd, w.take q'.contentLength, ?_, ?_⟩
        · rw [List.append_assoc, List.take_append_drop]
          exact hbytes
        · rw [hk]
          rfl
  · exact absurd (congrArg Prod.fst hparse) (hdead.parse_dead out).1

/-! ## When an error is final -/

/-- Among the parser's unread lines there is, behind lines that are all taken, an unfinished one that is
given up too early. The announced length has no part in it. -/
def HttpParser.CutShort (p : HttpParser) : Prop :=
  ∃ g u g' w, p.Stale (Rep · g u) ∧ scanner.Silent g u g' w ∧ GivenUpEarly g' w

/-- An error comes before the body, so the call fails with any announced length, and in the same way. -/
theorem parse_error_stale {p q : HttpParser} {b : Bool} {n : ℕ} {g : Progress} {u : Bytes} {out out' : HttpRequest}
    (hrep : Rep { p with chunked := b, contentLength := n } g u) (herr : p.parse out = (.Error, q, out')) :
    ∃ q', parse { p with chunked := b, contentLength := n } out = (.Error, q', out) ∧
      ∀ P : HttpParser → Prop, P q' → q.Stale P := by
  rcases @parse_stale _ p.chunked p.contentLength _ _ hrep out with
    ⟨status, q', b', n', -, hparse, hstale⟩ | ⟨k, m, w, q', -, hq, -, heq⟩
  · have hp : p.parse out = (status, { q' with chunked := b', contentLength := n' }, out) := hstale
    rw [herr] at hp
    simp only [Prod.mk.injEq] at hp
    obtain ⟨rfl, rfl, -⟩ := hp
    exact ⟨q', hparse, fun P h => .with_framing h b' n'⟩
  · have hq' : q'.parse out = (.Error, q, out') := heq.symm.trans herr
    rcases parse_body_stale hq out with ⟨-, h⟩ | ⟨-, h⟩
    · simp [h] at hq'
    · simp [h] at hq'

/-- A parser in its body completes the request once the body is there. -/
theorem HttpParser.Stale.completes_body {q : HttpParser} {k : Head} {m : ℕ} {w : Bytes}
    (hq : q.Stale (Rep · (.body k m) w)) :
    ∃ calls, ParseStatus.Complete ∈ (Reactive.run HttpParser.call q calls).2 := by
  obtain ⟨b, n, hrep⟩ := hq
  have hmore : (q.append (List.replicate q.contentLength 0)).Stale
      (Rep · (.body k m) (w ++ List.replicate q.contentLength 0)) := ⟨b, n, hrep.append _⟩
  refine ⟨[.append (List.replicate q.contentLength 0), .parse {}], ?_⟩
  rcases parse_body_stale hmore {} with ⟨hlt, -⟩ | ⟨-, hdone⟩
  · simp only [HttpParser.append, List.length_append, List.length_replicate] at hlt
    omega
  · simp only [Reactive.run_cons, HttpParser.call, hdone]
    simp

/-- The rest of the line, a blank line and a body complete a request. -/
theorem GivenUpEarly.completes {q : HttpParser} {g : Progress} {w : Bytes} (h : GivenUpEarly g w)
    (hq : q.Stale (Rep · g w)) :
    ∃ calls, ParseStatus.Complete ∈ (Reactive.run HttpParser.call q calls).2 := by
  obtain ⟨b, n, hrep⟩ := hq
  obtain ⟨x, line, k, m, hx, hnot, hread, hm⟩ := h.exists_headers
  -- The last bytes are a body of the length that the head announces, if nothing is left behind.
  let rest := x ++ crlf ++ List.replicate m 0
  have hinput : w ++ rest = line ++ crlf ++ (crlf ++ List.replicate m 0) := by
    rw [show rest = x ++ (crlf ++ List.replicate m 0) from List.append_assoc .., ← List.append_assoc w, hx]
  have hrep' := hrep.append rest
  rw [hinput] at hrep'
  have hline : g.step (line ++ crlf ++ (crlf ++ List.replicate m 0))
      = .next (.headers k) (crlf ++ List.replicate m 0) none :=
    Progress.step_of_readLine h.inHead (cut_crlf _ hnot) hread
  have hblank : Progress.step (.headers k) (crlf ++ List.replicate m 0)
      = .next (.body k m) (List.replicate m 0) none := step_blank hm _
  have hbody := body_step k (List.length_replicate (n := m) (a := (0 : UInt8))) []
  rw [List.append_nil] at hbody
  have hexact := parse_complete_of_silent hrep' (.step hline (.step hblank (.refl _ _))) hbody {}
  rcases @parse_stale _ q.chunked q.contentLength _ _ hrep' {} with
    ⟨status, q', -, -, hstatus, hparse, -⟩ | ⟨k', m', w', q', -, hq', -, heq⟩
  · exact absurd (congrArg Prod.fst (hparse.symm.trans hexact)) hstatus
  · have hcall : (q.append rest).parse {} = q'.parse {} := heq
    rcases parse_body_stale hq' {} with ⟨-, hmore⟩ | ⟨-, hdone⟩
    · obtain ⟨calls, hcalls⟩ := hq'.completes_body
      refine ⟨.append rest :: .parse {} :: calls, ?_⟩
      simp only [Reactive.run_cons, HttpParser.call, hcall, hmore]
      simp [hcalls]
    · refine ⟨[.append rest, .parse {}], ?_⟩
      simp only [Reactive.run_cons, HttpParser.call, hcall, hdone]
      simp

/-- **When an error is final.** Once `parse` has returned `Error`, no later sequence of `append` and
`parse` returns `Complete`, if and only if it was not a line given up too early. -/
theorem error_final_iff (p q : HttpParser) (out out' : HttpRequest) (hp : Used (fun _ => True) p)
    (herr : p.parse out = (.Error, q, out')) :
    (∀ calls, ParseStatus.Complete ∉ (Reactive.run HttpParser.call q calls).2) ↔ ¬ p.CutShort := by
  constructor
  · rintro hfinal ⟨g, u, g', w, ⟨b, n, hrep⟩, hsil, hearly⟩
    obtain ⟨q', herr', hq⟩ := parse_error_stale hrep herr
    obtain ⟨calls, hcomplete⟩ := hearly.completes (hq (Rep · g' w) (hearly.rep hrep hsil herr'))
    exact hfinal calls hcomplete
  · intro hnot
    rcases hp.stale with ⟨b, n, g, u, hrep, -⟩ | hdead
    · obtain ⟨q', herr', hq⟩ := parse_error_stale hrep herr
      obtain ⟨g', w, hsil, hfail, hleaves⟩ := parse_error hrep herr'
      have hlost : Lost g' w := by
        obtain ⟨hg, ⟨line, r, hcut, -⟩ | ⟨hcut, hlong⟩⟩ := Progress.step_fail hfail
        · exact lost_of_fail hfail hcut
        · refine ⟨hg, fun line g'' hahead hread => ?_⟩
          by_contra hframed
          exact hnot ⟨g, u, g', w, ⟨b, n, hrep⟩, hsil, hcut, hlong, line, g'', hahead, hread, hframed⟩
      exact (hq Dead (hlost.leaves hleaves)).run_dead
    · have hq := (hdead.parse_dead out).2
      rw [herr] at hq
      exact hq.run_dead

/-- An empty request line is refused for good, also after a `reset` in the middle of a body. -/
theorem error_final_emptyLine :
    ∃ q, (midBody.reset.append crlf).parse {} = (.Error, q, {}) ∧
      ((∀ calls, ParseStatus.Complete ∉ (Reactive.run HttpParser.call q calls).2) ↔
        ¬ (midBody.reset.append crlf).CutShort) := by
  have herr : (midBody.reset.append crlf).parse {}
      = (.Error, ((midBody.reset.append crlf).parse {}).2.1, {}) := by decide
  exact ⟨_, herr, error_final_iff _ _ {} {} (.append crlf (.reset trivial (used_midBody _))) herr⟩

/-- **An error that is not final.** More than `kMaxRequestLineLen` bytes of a request line are an error
while its end is missing; when it arrives, the request is completed. -/
theorem error_not_final :
    ∃ q, Used (fun _ => True) (HttpParser.append {} (openLine kMaxRequestLineLen)) ∧
      (HttpParser.append {} (openLine kMaxRequestLineLen)).parse {} = (.Error, q, {}) ∧
      ∃ calls, ParseStatus.Complete ∈ (Reactive.run HttpParser.call q calls).2 := by
  have hrep := (rep_start []).append (openLine kMaxRequestLineLen)
  obtain ⟨l, hl⟩ := openLine_eq kMaxRequestLineLen
  have hnot := l.not_crlf_infix_toBytes
  have hearly : GivenUpEarly .requestLine (openLine kMaxRequestLineLen) := by
    refine ⟨?_, ?_, l.toBytes, .headers (Head.ofRequestLine l), ⟨hnot, .inr ?_⟩, ?_, ?_⟩
    · rw [cut_eq_none_iff]
      exact fun h => hnot (hl ▸ h.trans (List.infix_append' [] _ _))
    · simp only [Progress.limit, openLine, List.length_append, List.length_replicate]
      exact Nat.lt_add_of_pos_left (by decide)
    · rw [← hl, List.append_assoc]
      exact List.prefix_append _ _
    · simp [Progress.readLine, (Head.ofLine_eq_some_iff l.toBytes _).mpr ⟨l, rfl, rfl⟩]
    · simp [Progress.Misframed, Head.ofRequestLine, bodyLength, Finmap.lookup_empty]
  obtain ⟨q, herr⟩ := parse_error_of_silent hrep (.refl _ _) hearly.step {}
  exact ⟨q, .append _ .fresh, herr, hearly.completes (.of (hearly.rep hrep (.refl _ _) herr))⟩

end ApiGateway.Http
