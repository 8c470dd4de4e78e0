import ApiGateway.Http.Limits

/-!
# Calls of `reset`

`reset` is public, though the gateway has no call of it. It clears the buffer, the state, the offset and
the headers; the parts of the last request line and the announced length stay. The former are overwritten
before they are read (`Alike.parse`). The length is not if the next request announces none, so that the
parser is a new one again exactly when the length was zero (`reset_fresh_iff`).

The offsets are within the buffer in any case (`InBounds`), also after an error. What a completed request
takes off the buffer is its own bytes as long as no stale length is left behind: a parser is then on track,
or has refused a line for good (`Used.onTrack_or_dead`).
-/

namespace ApiGateway.Http

open Str HttpParser Resumable

/-- The parsers that calls lead to, where `reset` is called in states that meet `R` only. -/
inductive Used (R : HttpParser → Prop) : HttpParser → Prop
  | fresh : Used R {}
  | append {p} (data : Bytes) : Used R p → Used R (p.append data)
  | parse {p} (out : HttpRequest) : Used R p → Used R (p.parse out).2.1
  | reset {p} : R p → Used R p → Used R p.reset

/-- The gateway's own parsers are used without `reset`. -/
theorem Reached.used {R : HttpParser → Prop} {p : HttpParser} (h : Reached p) : Used R p := by
  induction h with
  | fresh => exact .fresh
  | append data _ ih => exact .append data ih
  | parse out _ ih => exact .parse out ih

namespace HttpParser

/-! ## Offsets -/

/-- The offset is within the buffer and behind a request line that has been read, and there are no more
headers than lines counted. -/
structure InBounds (p : HttpParser) : Prop where
  consumed_le : p.consumed ≤ p.buffer.length
  consumed_pos : p.state ≠ .RequestLine → 0 < p.consumed
  headers_le : p.headers.keys.card ≤ p.headerCount

theorem inBounds_start (v : Bytes) : InBounds { buffer := v } :=
  ⟨Nat.zero_le _, fun h => absurd rfl h, le_rfl⟩

theorem card_keys_insert_le (m : HeaderMap) (key value : Bytes) :
    (m.insert key value).keys.card ≤ m.keys.card + 1 := by
  have hkeys : (m.insert key value).keys = insert key m.keys := by
    ext k
    simp only [Finmap.mem_keys, Finmap.mem_insert, Finset.mem_insert]
  rw [hkeys]
  exact Finset.card_insert_le _ _

theorem InBounds.addHeader {p : HttpParser} (h : p.InBounds) (line : Bytes) :
    (p.addHeader line).1.InBounds := by
  have hcount := h.headers_le.trans (Nat.le_succ _)
  simp only [HttpParser.addHeader]
  split
  · exact h
  · split_ifs
    · exact h
    · exact ⟨h.consumed_le, h.consumed_pos, hcount⟩
    · exact ⟨h.consumed_le, h.consumed_pos, hcount⟩
    · exact ⟨h.consumed_le, h.consumed_pos,
        (card_keys_insert_le _ _ _).trans (Nat.succ_le_succ h.headers_le)⟩

/-- The line terminator that is found ends within the buffer. -/
theorem add_two_le_of_findFrom {s : Bytes} {pos eol : ℕ} (h : findFrom s crlf pos = some eol) :
    pos ≤ eol ∧ eol + 2 ≤ s.length := by
  obtain ⟨i, hi, rfl⟩ := Option.map_eq_some_iff.mp h
  have := add_length_le_of_find hi
  simp only [crlf, List.length_cons, List.length_nil, List.length_drop] at this
  omega

/-- The offsets `pos` of the rounds of the loop over the header lines. -/
def headerOffsets : ℕ → HttpParser → ℕ → List ℕ
  | 0, _, _ => []
  | fuel + 1, p, pos =>
    pos ::
      match findFrom p.buffer crlf pos with
      | none => []
      | some eol =>
        if eol = pos then []
        else
          match p.addHeader (substr p.buffer pos (eol - pos)) with
          | (_, .error _) => []
          | (p, .ok ()) => headerOffsets fuel { p with consumed := eol + 2 } (eol + 2)

/-- The offsets that a call of `parse` subtracts from the size of the buffer or cuts the buffer at: those
of the header lines, and that of the body. -/
def offsets (p : HttpParser) : List ℕ :=
  match p.requestLinePhase with
  | (p, .ok true) =>
    (if p.state = .Headers then headerOffsets (p.buffer.length + 1) p p.consumed else []) ++
      match p.headersPhase with
      | (p, .ok true) => [p.consumed]
      | _ => []
  | _ => []

/-- The loop over the header lines stays within the buffer. Each round starts at an offset within it, and
leaves the offset behind the line it has taken. -/
theorem InBounds.parseHeadersLoop (fuel : ℕ) {p : HttpParser} {pos : ℕ} (h : p.InBounds)
    (hpos : pos ≤ p.buffer.length) :
    (parseHeadersLoop fuel p pos).1.InBounds ∧
      (∀ stop, (HttpParser.parseHeadersLoop fuel p pos).2 = .ok (some stop) →
        0 < stop ∧ stop ≤ p.buffer.length) ∧
      ∀ o ∈ headerOffsets fuel p pos, o ≤ p.buffer.length := by
  induction fuel generalizing p pos with
  | zero => exact ⟨h, by simp [HttpParser.parseHeadersLoop], by simp [headerOffsets]⟩
  | succ fuel ih =>
    rw [HttpParser.parseHeadersLoop, headerOffsets]
    cases heol : findFrom p.buffer crlf pos with
    | none =>
      simp only [List.mem_singleton, forall_eq, hpos, and_true]
      split
      · exact ⟨h, by simp⟩
      · exact ⟨h, by simp⟩
    | some eol =>
      obtain ⟨-, hle⟩ := add_two_le_of_findFrom heol
      by_cases hblank : eol = pos
      · simp only [hblank, if_true, List.mem_singleton, forall_eq, hpos, and_true]
        refine ⟨h, fun stop hstop => ?_⟩
        obtain rfl : pos + 2 = stop := by simpa using hstop
        exact ⟨Nat.succ_pos _, hblank ▸ hle⟩
      · simp only [hblank, if_false]
        have hline := h.addHeader (substr p.buffer pos (eol - pos))
        have hbuffer := addHeader_buffer p (substr p.buffer pos (eol - pos))
        revert hline hbuffer
        rcases p.addHeader (substr p.buffer pos (eol - pos)) with ⟨q, e | ⟨⟩⟩
        · exact fun hline _ => ⟨hline, by simp, by simpa using hpos⟩
        · intro hline hbuffer
          have hle' : eol + 2 ≤ q.buffer.length := by rwa [hbuffer]
          have hq : InBounds { q with consumed := eol + 2 } :=
            ⟨hle', fun _ => Nat.succ_pos _, hline.headers_le⟩
          obtain ⟨hloop, hstop, hoffsets⟩ := ih hq hle'
          refine ⟨hloop, ?_, List.forall_mem_cons.mpr ⟨hpos, ?_⟩⟩
          · rw [← hbuffer]
            exact hstop
          · rw [← hbuffer]
            exact hoffsets

theorem InBounds.requestLinePhase {p : HttpParser} (h : p.InBounds) :
    p.requestLinePhase.1.InBounds := by
  rw [HttpParser.requestLinePhase]
  split
  · rw [parseRequestLine]
    cases heol : findFrom p.buffer crlf 0 with
    | none =>
      simp only
      split_ifs
      · exact h
      · exact h
    | some eol =>
      obtain ⟨-, hle⟩ := add_two_le_of_findFrom heol
      have hframe := analyseRequestLine_frame p (substr p.buffer 0 (eol - 0))
      simp only
      revert hframe
      rcases p.analyseRequestLine (substr p.buffer 0 (eol - 0)) with ⟨q, e | ⟨⟩⟩
      · rintro ⟨m, pa, qu, v, rfl⟩
        exact ⟨h.consumed_le, h.consumed_pos, h.headers_le⟩
      · rintro ⟨m, pa, qu, v, rfl⟩
        exact ⟨hle, fun _ => Nat.succ_pos _, h.headers_le⟩
  · exact h

/-- Behind the request line the parser no longer waits for one. -/
theorem requestLinePhase_state {p q : HttpParser} (h : p.requestLinePhase = (q, .ok true)) :
    q.state ≠ .RequestLine := by
  rw [requestLinePhase] at h
  split at h
  · revert h
    rcases p.parseRequestLine 0 with ⟨q', e | _ | pos⟩
    · simp
    · simp
    · intro h
      obtain rfl := (Prod.mk.inj h).1
      simp
  · obtain rfl := (Prod.mk.inj h).1
    assumption

/-- The framing decision touches the announced length, the flag and the state only. -/
theorem selectFraming_frame (p : HttpParser) :
    ∃ n b st, p.selectFraming.1 = { p with contentLength := n, chunked := b, state := st } := by
  have hread : ∃ n, p.readContentLength.1 = { p with contentLength := n } := by
    rw [readContentLength]
    split
    · exact ⟨_, rfl⟩
    · split
      · exact ⟨_, rfl⟩
      · split_ifs
        · exact ⟨_, rfl⟩
        · exact ⟨_, rfl⟩
        · exact ⟨_, rfl⟩
  rw [selectFraming]
  revert hread
  rcases p.readContentLength with ⟨q, e | ⟨⟩⟩
  · rintro ⟨n, rfl⟩
    exact ⟨n, _, _, rfl⟩
  · rintro ⟨n, rfl⟩
    simp only
    split_ifs
    · exact ⟨n, _, _, rfl⟩
    · exact ⟨n, _, _, rfl⟩
    · exact ⟨n, _, _, rfl⟩

theorem InBounds.headersPhase {p : HttpParser} (h : p.InBounds) : p.headersPhase.1.InBounds := by
  rw [HttpParser.headersPhase]
  split
  · obtain ⟨hloop, hstop, -⟩ := h.parseHeadersLoop (p.buffer.length + 1) h.consumed_le
    have hbuffer := parseHeadersLoop_buffer (p.buffer.length + 1) p p.consumed
    rw [parseHeaders]
    revert hloop hstop hbuffer
    rcases HttpParser.parseHeadersLoop (p.buffer.length + 1) p p.consumed with ⟨q, e | _ | pos⟩
    · exact fun hloop _ _ => hloop
    · exact fun hloop _ _ => hloop
    · intro hloop hstop hbuffer
      obtain ⟨hpos, hle⟩ := hstop pos rfl
      rw [← hbuffer] at hle
      obtain ⟨n, b, st, hframe⟩ := selectFraming_frame { q with consumed := pos }
      simp only
      revert hframe
      rcases selectFraming { q with consumed := pos } with ⟨q', e | ⟨⟩⟩
      · rintro rfl
        exact ⟨hle, fun _ => hpos, hloop.headers_le⟩
      · rintro rfl
        exact ⟨hle, fun _ => hpos, hloop.headers_le⟩
  · exact h

/-- The headers phase does not go back to the request line. -/
theorem headersPhase_state {p q : HttpParser} (h : p.headersPhase = (q, .ok true))
    (hp : p.state ≠ .RequestLine) : q.state ≠ .RequestLine := by
  rw [headersPhase] at h
  split at h
  · revert h
    rcases p.parseHeaders p.consumed with ⟨q', e | _ | pos⟩
    · simp
    · simp
    · simp only [selectFraming]
      rcases readContentLength { q' with consumed := pos } with ⟨q'', e | ⟨⟩⟩
      · simp
      · simp only
        split_ifs
        · simp
        · simp
        · intro h
          obtain rfl := (Prod.mk.inj h).1
          simp
  · obtain rfl := (Prod.mk.inj h).1
    exact hp

/-- A call of `parse` works within the buffer. -/
theorem InBounds.offsets_le {p : HttpParser} (h : p.InBounds) :
    ∀ o ∈ p.offsets, o ≤ p.buffer.length := by
  have hline := h.requestLinePhase
  have hbuffer := requestLinePhase_buffer p
  rw [offsets]
  revert hline hbuffer
  rcases p.requestLinePhase with ⟨q, e | _ | _⟩
  · simp
  · simp
  · intro hline hbuffer o ho
    simp only at hline hbuffer ho
    rw [← hbuffer]
    rcases List.mem_append.mp ho with ho | ho
    · split at ho
      · exact (hline.parseHeadersLoop (q.buffer.length + 1) hline.consumed_le).2.2 o ho
      · simp at ho
    · have hheaders := hline.headersPhase
      have hbuffer' := headersPhase_buffer q
      revert hheaders hbuffer' ho
      rcases q.headersPhase with ⟨q', e | _ | _⟩
      · simp
      · simp
      · intro ho hheaders hbuffer'
        obtain rfl : o = q'.consumed := by simpa using ho
        rw [← hbuffer']
        exact hheaders.consumed_le

/-- A failed call leaves the caller's request alone. -/
theorem parse_out {p : HttpParser} {out : HttpRequest} (h : (p.parse out).1 ≠ .Complete) :
    (p.parse out).2.2 = out := by
  obtain ⟨status, -, hparse⟩ | ⟨-, ⟨status, -, hparse⟩ | ⟨-, q, out', -, hparse⟩⟩ := p.parse_cases out
  · rw [hparse]
  · rw [hparse]
  · exact absurd (congrArg Prod.fst hparse) h

/-- The body that is taken ends behind the head. -/
theorem bodyPhase_consumed {p q : HttpParser} {out out' : HttpRequest}
    (h : p.bodyPhase out = some (q, out')) : q.buffer = p.buffer ∧ p.consumed ≤ q.consumed := by
  rw [bodyPhase] at h
  split at h
  · split at h
    · simp at h
    · obtain ⟨rfl, -⟩ := Prod.mk.inj (Option.some.inj h)
      exact ⟨rfl, Nat.le_add_right _ _⟩
  · obtain ⟨rfl, -⟩ := Prod.mk.inj (Option.some.inj h)
    exact ⟨rfl, le_rfl⟩

/-- A completed call takes a non-empty part off the front of the buffer. -/
theorem InBounds.exists_removed {p : HttpParser} (h : p.InBounds) {out : HttpRequest}
    (hcomplete : (p.parse out).1 = .Complete) :
    ∃ removed, removed ≠ [] ∧ p.buffer = removed ++ (p.parse out).2.1.buffer := by
  obtain ⟨status, hne, hparse⟩ | ⟨hline, ⟨status, hne, hparse⟩ | ⟨hheaders, q, out', hbody, hparse⟩⟩ :=
    p.parse_cases out
  · exact absurd ((congrArg Prod.fst hparse).symm.trans hcomplete) hne
  · exact absurd ((congrArg Prod.fst hparse).symm.trans hcomplete) hne
  · have hbounds := h.requestLinePhase.headersPhase
    have hstate := headersPhase_state (Prod.ext rfl hheaders) (requestLinePhase_state (Prod.ext rfl hline))
    obtain ⟨hsame, hadvance⟩ := bodyPhase_consumed hbody
    have hpos := hbounds.consumed_pos hstate
    have hle := hbounds.consumed_le
    rw [hparse, ← requestLinePhase_buffer p, ← headersPhase_buffer p.requestLinePhase.1, ← hsame]
    refine ⟨q.buffer.take q.consumed, ?_, (List.take_append_drop _ _).symm⟩
    rw [ne_eq, List.take_eq_nil_iff, ← List.length_eq_zero_iff, hsame]
    omega

theorem InBounds.parse {p : HttpParser} (h : p.InBounds) (out : HttpRequest) :
    (p.parse out).2.1.InBounds := by
  obtain ⟨status, -, hparse⟩ | ⟨-, ⟨status, -, hparse⟩ | ⟨-, q, out', -, hparse⟩⟩ := p.parse_cases out
  · rw [hparse]
    exact h.requestLinePhase
  · rw [hparse]
    exact h.requestLinePhase.headersPhase
  · rw [hparse]
    exact inBounds_start _

end HttpParser

theorem Used.inBounds {R : HttpParser → Prop} {p : HttpParser} (h : Used R p) : p.InBounds := by
  induction h with
  | fresh => exact inBounds_start []
  | append data _ ih =>
    refine ⟨ih.consumed_le.trans ?_, ih.consumed_pos, ih.headers_le⟩
    simp [HttpParser.append]
  | parse out _ ih => exact ih.parse out
  | reset _ _ _ => exact ⟨Nat.zero_le _, fun h => absurd rfl h, le_rfl⟩

/-! ## The request's own bytes -/

/-- What a completed call takes off the buffer is the bytes of the request it returns. -/
theorem HttpParser.OnTrack.accepts {p q : HttpParser} {out r : HttpRequest} (hp : p.OnTrack)
    (hparse : p.parse out = (.Complete, q, r)) :
    ∃ r', Accepts p.buffer r' q.buffer ∧ r = { r' with requestId := out.requestId } := by
  have hsim := hp.matches_parse out
  rw [hparse] at hsim
  exact hsim.accepts.2

/-- **Without a stale length the parser does not lose track.** -/
theorem Used.onTrack_or_dead {p : HttpParser} (h : Used (·.contentLength = 0) p) :
    p.OnTrack ∨ p.Dead := by
  induction h with
  | fresh => exact .inl (onTrack_start [])
  | append data _ ih =>
    refine ih.imp (fun h => h.append data) ?_
    rintro ⟨g, u, hrep, hlost⟩
    exact ⟨g, u ++ data, hrep.append data, hlost.append data⟩
  | parse out _ ih =>
    rcases ih with h | h
    · exact (h.parse out).imp_right fun hrefusing => hrefusing.2.1
    · exact .inr (h.parse out).2
  | reset hlen _ _ => exact .inl ⟨.requestLine, [], ⟨rfl, rfl, rfl, rfl, rfl, hlen⟩, .refl _ _⟩

/-- So that a completed request is one that the buffer begins with. -/
theorem Used.accepts {p q : HttpParser} {out r : HttpRequest} (h : Used (·.contentLength = 0) p)
    (hparse : p.parse out = (.Complete, q, r)) :
    ∃ r', Accepts p.buffer r' q.buffer ∧ r = { r' with requestId := out.requestId } := by
  rcases h.onTrack_or_dead with htrack | hdead
  · exact htrack.accepts hparse
  · exact absurd (congrArg Prod.fst hparse) (hdead.parse out).1

/-- **Offsets and input.** In every state that calls of `append`, `parse` and `reset` lead to, the offset and
all the offsets that the next call works with are within the buffer, and the headers are no more than the
lines counted; a failed call leaves the buffer and the caller's request alone, and a completed one takes a
non-empty part off the front. If `reset` is called with no announced length pending only, this part is the
bytes of the request. -/
theorem used_undisturbed (p : HttpParser) (hp : Used (fun _ => True) p) (out : HttpRequest) :
    p.consumed ≤ p.buffer.length ∧ (∀ o ∈ p.offsets, o ≤ p.buffer.length) ∧
      p.headers.keys.card ≤ p.headerCount ∧
      ((p.parse out).1 ≠ .Complete → (p.parse out).2.1.buffer = p.buffer ∧ (p.parse out).2.2 = out) ∧
      ((p.parse out).1 = .Complete →
        ∃ removed, removed ≠ [] ∧ p.buffer = removed ++ (p.parse out).2.1.buffer) ∧
      (Used (·.contentLength = 0) p → ∀ q r, p.parse out = (.Complete, q, r) →
        ∃ own r', own ≠ [] ∧ p.buffer = own ++ q.buffer ∧ Accepts own r' [] ∧
          r = { r' with requestId := out.requestId }) := by
  have hbounds := hp.inBounds
  refine ⟨hbounds.consumed_le, hbounds.offsets_le, hbounds.headers_le, ?_, hbounds.exists_removed, ?_⟩
  · exact fun hfailed => ⟨parse_buffer hfailed, parse_out hfailed⟩
  · intro hempty q r hparse
    obtain ⟨r', ⟨h, body, hle, hlen, hbuffer, hr⟩, hout⟩ := hempty.accepts hparse
    refine ⟨h.toBytes ++ body, r', ?_, hbuffer, ⟨h, body, hle, hlen, ?_, hr⟩, hout⟩
    · simp [RequestHead.toBytes, crlf]
    · rw [List.append_nil]

/-! ## What is left behind -/

namespace HttpParser

/-- The two parsers differ in nothing that is read before it is overwritten. -/
def Alike (p q : HttpParser) : Prop :=
  (∃ b, p = { q with chunked := b }) ∨
    q.state = .RequestLine ∧ ∃ m pa qu v b,
      p = { q with method := m, path := pa, query := qu, version := v, chunked := b }

theorem Alike.append {p q : HttpParser} (h : Alike p q) (data : Bytes) :
    Alike (p.append data) (q.append data) := by
  rcases h with ⟨b, rfl⟩ | ⟨hstate, m, pa, qu, v, b, rfl⟩
  · exact .inl ⟨b, rfl⟩
  · exact .inr ⟨hstate, m, pa, qu, v, b, rfl⟩

/-- The flag and the announced length do not matter to a header line. -/
theorem addHeader_framing (p : HttpParser) (b : Bool) (n : ℕ) (line : Bytes) :
    addHeader { p with chunked := b, contentLength := n } line
      = ({ (p.addHeader line).1 with chunked := b, contentLength := n }, (p.addHeader line).2) := by
  simp only [addHeader]
  split
  · rfl
  · split_ifs
    · rfl
    · rfl
    · rfl
    · rfl

theorem parseHeadersLoop_framing (fuel : ℕ) (p : HttpParser) (b : Bool) (n pos : ℕ) :
    parseHeadersLoop fuel { p with chunked := b, contentLength := n } pos
      = ({ (parseHeadersLoop fuel p pos).1 with chunked := b, contentLength := n },
        (parseHeadersLoop fuel p pos).2) := by
  induction fuel generalizing p pos with
  | zero => rfl
  | succ fuel ih =>
    rw [parseHeadersLoop, parseHeadersLoop]
    simp only
    cases findFrom p.buffer crlf pos with
    | none =>
      simp only
      split_ifs
      · rfl
      · rfl
    | some eol =>
      simp only
      split_ifs
      · rfl
      · rw [addHeader_framing]
        rcases p.addHeader (substr p.buffer pos (eol - pos)) with ⟨q, e | ⟨⟩⟩
        · rfl
        · exact ih { q with consumed := eol + 2 } (eol + 2)

/-- Both are overwritten with the framing decision, the length if one is announced. -/
theorem selectFraming_framing (p : HttpParser) (b : Bool) (n : ℕ) :
    (selectFraming { p with chunked := b, contentLength := n }).2 = p.selectFraming.2 ∧
      ∃ b' n', (selectFraming { p with chunked := b, contentLength := n }).1
          = { p.selectFraming.1 with chunked := b', contentLength := n' } ∧
        (n = p.contentLength → n' = p.selectFraming.1.contentLength) := by
  have hread : ∃ n', readContentLength { p with chunked := b, contentLength := n }
      = ({ p.readContentLength.1 with chunked := b, contentLength := n' }, p.readContentLength.2) ∧
        (n = p.contentLength → n' = p.readContentLength.1.contentLength) := by
    simp only [readContentLength]
    split
    · exact ⟨n, rfl, id⟩
    · split
      · exact ⟨n, rfl, id⟩
      · split_ifs
        · exact ⟨n, rfl, id⟩
        · exact ⟨_, rfl, fun _ => rfl⟩
        · exact ⟨_, rfl, fun _ => rfl⟩
  obtain ⟨n', hread, hlength⟩ := hread
  rw [selectFraming, selectFraming, hread]
  revert hlength
  rcases p.readContentLength with ⟨q, e | ⟨⟩⟩
  · exact fun hlength => ⟨rfl, b, n', rfl, hlength⟩
  · dsimp only
    split_ifs
    · exact fun hlength => ⟨rfl, _, n', rfl, hlength⟩
    · exact fun hlength => ⟨rfl, _, n', rfl, hlength⟩
    · exact fun hlength => ⟨rfl, _, n', rfl, hlength⟩

theorem headersPhase_framing (p : HttpParser) (b : Bool) (n : ℕ) :
    (headersPhase { p with chunked := b, contentLength := n }).2 = p.headersPhase.2 ∧
      ∃ b' n', (headersPhase { p with chunked := b, contentLength := n }).1
          = { p.headersPhase.1 with chunked := b', contentLength := n' } ∧
        (n = p.contentLength → n' = p.headersPhase.1.contentLength) := by
  have hkept : (parseHeadersLoop (p.buffer.length + 1) p p.consumed).1.contentLength = p.contentLength := by
    have hsame := parseHeadersLoop_framing (p.buffer.length + 1) p p.chunked p.contentLength p.consumed
    exact congrArg (·.1.contentLength) hsame
  simp only [headersPhase, parseHeaders, parseHeadersLoop_framing]
  split_ifs
  · revert hkept
    rcases parseHeadersLoop (p.buffer.length + 1) p p.consumed with ⟨q, e | _ | pos⟩
    · exact fun hkept => ⟨rfl, b, n, rfl, fun hn => hn.trans hkept.symm⟩
    · exact fun hkept => ⟨rfl, b, n, rfl, fun hn => hn.trans hkept.symm⟩
    · intro hkept
      have hframing := selectFraming_framing { q with consumed := pos } b n
      simp only at hkept hframing ⊢
      revert hframing
      rcases selectFraming { q with consumed := pos, chunked := b, contentLength := n } with ⟨q₁, e₁ | ⟨⟩⟩
      · rcases selectFraming { q with consumed := pos } with ⟨q₂, e₂ | ⟨⟩⟩
        · rintro ⟨heq, b', n', hq, hlength⟩
          exact ⟨congrArg Except.error (Except.error.inj heq), b', n', hq, fun hn => hlength (hn.trans hkept.symm)⟩
        · simp
      · rcases selectFraming { q with consumed := pos } with ⟨q₂, e₂ | ⟨⟩⟩
        · simp
        · rintro ⟨-, b', n', hq, hlength⟩
          exact ⟨rfl, b', n', hq, fun hn => hlength (hn.trans hkept.symm)⟩
  · exact ⟨rfl, b, n, rfl, id⟩

/-- The two results tell the caller the same, and leave parsers that are alike. -/
def Agree (x y : ParseStatus × HttpParser × HttpRequest) : Prop :=
  x.1 = y.1 ∧ x.2.2 = y.2.2 ∧ Alike x.2.1 y.2.1

/-- `parse` behind the request line. -/
def parseBehindLine (p : HttpParser) (out : HttpRequest) : ParseStatus × HttpParser × HttpRequest :=
  match p.headersPhase with
  | (p, .error _) => (.Error, p, out)
  | (p, .ok false) => (.Incomplete, p, out)
  | (p, .ok true) =>
    match p.bodyPhase out with
    | none => (.Incomplete, p, out)
    | some (p, out) => (.Complete, p.finish out)

theorem parse_eq (p : HttpParser) (out : HttpRequest) :
    p.parse out = match p.requestLinePhase with
      | (p, .error _) => (.Error, p, out)
      | (p, .ok false) => (.Incomplete, p, out)
      | (p, .ok true) => p.parseBehindLine out := rfl

theorem parseBehindLine_agree (p : HttpParser) (b : Bool) (out : HttpRequest) :
    Agree (parseBehindLine { p with chunked := b } out) (p.parseBehindLine out) := by
  obtain ⟨hres, b', n', hq, hlength⟩ := headersPhase_framing p b p.contentLength
  have hsame := hlength rfl
  rw [parseBehindLine, parseBehindLine]
  revert hres hq hsame
  rcases headersPhase { p with chunked := b } with ⟨q₁, res₁⟩
  rcases p.headersPhase with ⟨q₂, res₂⟩
  intro hres hq hsame
  dsimp only at hres hq hsame
  subst hres hq hsame
  rcases res₁ with e | _ | _
  · exact ⟨rfl, rfl, .inl ⟨b', rfl⟩⟩
  · exact ⟨rfl, rfl, .inl ⟨b', rfl⟩⟩
  · simp only [bodyPhase]
    split_ifs
    · exact ⟨rfl, rfl, .inl ⟨b', rfl⟩⟩
    · exact ⟨rfl, rfl, .inl ⟨false, rfl⟩⟩
    · exact ⟨rfl, rfl, .inl ⟨false, rfl⟩⟩

/-- What the last request line has left is overwritten when the next one is taken. -/
theorem parse_agree_of_requestLine {q : HttpParser} (hstate : q.state = .RequestLine)
    (m pa qu v : Bytes) (b : Bool) (out : HttpRequest) :
    Agree (parse { q with method := m, path := pa, query := qu, version := v, chunked := b } out)
      (q.parse out) := by
  rw [parse_eq, parse_eq, requestLinePhase, requestLinePhase, if_pos hstate, if_pos hstate,
    parseRequestLine, parseRequestLine]
  dsimp only
  cases findFrom q.buffer crlf 0 with
  | none =>
    dsimp only
    split_ifs
    · exact ⟨rfl, rfl, .inr ⟨hstate, m, pa, qu, v, b, rfl⟩⟩
    · exact ⟨rfl, rfl, .inr ⟨hstate, m, pa, qu, v, b, rfl⟩⟩
  | some eol =>
    dsimp only
    generalize substr q.buffer 0 (eol - 0) = line
    have hframe := analyseRequestLine_frame q line
    have hframe' := analyseRequestLine_frame
      { q with method := m, path := pa, query := qu, version := v, chunked := b } line
    rcases hq : q.analyseRequestLine line with ⟨q', e | ⟨⟩⟩
    · rcases hp : analyseRequestLine
        { q with method := m, path := pa, query := qu, version := v, chunked := b } line with
        ⟨p', e' | ⟨⟩⟩
      · rw [hq] at hframe
        rw [hp] at hframe'
        obtain ⟨m₁, pa₁, qu₁, v₁, rfl⟩ := hframe
        obtain ⟨m₂, pa₂, qu₂, v₂, rfl⟩ := hframe'
        exact ⟨rfl, rfl, .inr ⟨hstate, m₂, pa₂, qu₂, v₂, b, rfl⟩⟩
      · obtain ⟨l, rfl, -⟩ := (analyseRequestLine_ok_iff _ p' line).mp hp
        have := (analyseRequestLine_ok_iff q (q.withLine l) _).mpr ⟨l, rfl, rfl⟩
        simp [this] at hq
    · obtain ⟨l, rfl, rfl⟩ := (analyseRequestLine_ok_iff q q' line).mp hq
      rw [(analyseRequestLine_ok_iff
        { q with method := m, path := pa, query := qu, version := v, chunked := b } _ _).mpr
        ⟨l, rfl, rfl⟩]
      exact parseBehindLine_agree
        { q.withLine l with state := .Headers, consumed := eol + 2 } b out

/-- **Parsers that are alike parse alike.** -/
theorem Alike.parse {p q : HttpParser} (h : Alike p q) (out : HttpRequest) :
    Agree (p.parse out) (q.parse out) := by
  rcases h with ⟨b, rfl⟩ | ⟨hstate, m, pa, qu, v, b, rfl⟩
  · by_cases hstate : q.state = .RequestLine
    · exact parse_agree_of_requestLine hstate q.method q.path q.query q.version b out
    · rw [parse_eq, parse_eq, requestLinePhase, requestLinePhase, if_neg hstate, if_neg hstate]
      exact parseBehindLine_agree q b out
  · exact parse_agree_of_requestLine hstate m pa qu v b out

/-- One call, with the status and the request that the caller gets. -/
def answer (p : HttpParser) : ParserCall → HttpParser × List (ParseStatus × HttpRequest)
  | .append data => (p.append data, [])
  | .parse out => ((p.parse out).2.1, [((p.parse out).1, (p.parse out).2.2)])

theorem Alike.run {p q : HttpParser} (h : Alike p q) (calls : List ParserCall) :
    (Reactive.run answer p calls).2 = (Reactive.run answer q calls).2 := by
  induction calls generalizing p q with
  | nil => rfl
  | cons c calls ih =>
    rw [Reactive.run_cons, Reactive.run_cons]
    cases c with
    | append data => exact ih (h.append data)
    | parse out =>
      obtain ⟨hstatus, hrequest, hnext⟩ := h.parse out
      simp only [answer, hstatus, hrequest, ih hnext]

/-- A request without headers. -/
def plainRequest : Bytes := bytes "GET / HTTP/1.1\r\n\r\n"

/-- A request without headers is not complete while a stale length is pending. -/
theorem parse_plainRequest (p : HttpParser) (h : p.contentLength ≠ 0) :
    ((p.reset.append plainRequest).parse {}).1 = .Incomplete := by
  obtain ⟨n, hn⟩ := Nat.exists_eq_succ_of_ne_zero h
  rw [reset, hn]
  rfl

/-- So that the caller can tell it from a new parser. -/
theorem run_plainRequest_ne (p : HttpParser) (h : p.contentLength ≠ 0) :
    (Reactive.run answer p.reset [.append plainRequest, .parse {}]).2
      ≠ (Reactive.run answer {} [.append plainRequest, .parse {}]).2 := by
  have hrun : ∀ q : HttpParser, (Reactive.run answer q [.append plainRequest, .parse {}]).2
      = [(((q.append plainRequest).parse {}).1, ((q.append plainRequest).parse {}).2.2)] :=
    fun _ => rfl
  have hfresh : ((HttpParser.append {} plainRequest).parse {}).1 = .Complete := by decide
  rw [hrun, hrun, parse_plainRequest p h, hfresh]
  simp

end HttpParser

/-- **`reset` restores a new parser exactly when no announced length is pending.** -/
theorem reset_fresh_iff (p : HttpParser) :
    (∀ calls, (Reactive.run answer p.reset calls).2 = (Reactive.run answer {} calls).2) ↔
      p.contentLength = 0 := by
  constructor
  · intro h
    by_contra hlen
    exact run_plainRequest_ne p hlen (h _)
  · intro hlen calls
    refine Alike.run (.inr ⟨rfl, p.method, p.path, p.query, p.version, p.chunked, ?_⟩) calls
    rw [reset, hlen]

/-- A parser that waits for five bytes of a body. -/
def midBody : HttpParser :=
  ((HttpParser.append {} (bytes "POST / HTTP/1.1\r\nContent-Length: 5\r\n\r\n")).parse {}).2.1

theorem used_midBody (R : HttpParser → Prop) : Used R midBody := .parse {} (.append _ .fresh)

/-- **`reset` in the middle of a body.** The next request is not completed, where a new parser completes
it. -/
theorem reset_midBody :
    Used (fun _ => True) midBody ∧
      ∃ calls, (Reactive.run answer midBody.reset calls).2 ≠ (Reactive.run answer {} calls).2 := by
  exact ⟨used_midBody _, _, run_plainRequest_ne midBody (by decide)⟩

/-- Without an announced length a request has no body. -/
theorem Accepts.body_eq_nil {b t : Bytes} {r : HttpRequest} (h : Accepts b r t)
    (hlen : r.headers.lookup (bytes "content-length") = none) : r.body = [] := by
  obtain ⟨k, body, -, hbody, -, rfl⟩ := h
  have honce := k.framing_once (bytes "content-length") (by decide)
  have hvalue : fieldValue k.fields (bytes "content-length") = none :=
    (lookup_insertFields honce).symm.trans hlen
  rw [RequestHead.contentLength, announcedLength, hvalue] at hbody
  exact List.length_eq_zero_iff.mp hbody

/-- The parser after `reset`, with two requests in its buffer. -/
def afterReset : HttpParser := midBody.reset.append (plainRequest ++ plainRequest)

/-- **A request with bytes of the next one.** After `reset` in the middle of a body of five bytes, the
first five bytes of the second request are taken for the body of the first. -/
theorem afterReset_takes_next :
    Used (fun _ => True) afterReset ∧
      ∃ q r, afterReset.parse {} = (.Complete, q, r) ∧
        ¬ ∃ own r', own ≠ [] ∧ afterReset.buffer = own ++ q.buffer ∧ Accepts own r' [] ∧
          r = { r' with requestId := [] } := by
  refine ⟨.append _ (.reset trivial (used_midBody _)), (afterReset.parse {}).2.1,
    (afterReset.parse {}).2.2, ?_, ?_⟩
  · exact Prod.ext (by decide : (afterReset.parse {}).1 = .Complete) rfl
  · rintro ⟨own, r', -, -, haccepts, hr⟩
    have hlen : (afterReset.parse {}).2.2.headers.lookup (bytes "content-length") = none := by
      decide
    have hbody : (afterReset.parse {}).2.2.body ≠ [] := by decide
    rw [hr] at hlen hbody
    exact hbody (haccepts.body_eq_nil hlen)

/-- After `reset` in the middle of a body the offsets are within the buffer all the same; a new parser takes
exactly the bytes of a request. -/
theorem used_undisturbed_examples :
    afterReset.consumed ≤ afterReset.buffer.length ∧
      ∃ own r', own ≠ [] ∧ plainRequest ++ plainRequest = own ++ plainRequest ∧ Accepts own r' [] ∧
        ((HttpParser.append {} (plainRequest ++ plainRequest)).parse {}).2.2
          = { r' with requestId := [] } := by
  refine ⟨(used_undisturbed afterReset (.append _ (.reset trivial (used_midBody _))) {}).1, ?_⟩
  have hparse : (HttpParser.append {} (plainRequest ++ plainRequest)).parse {}
      = (.Complete, { buffer := plainRequest },
        ((HttpParser.append {} (plainRequest ++ plainRequest)).parse {}).2.2) := by
    decide
  obtain ⟨-, -, -, -, -, hown⟩ := used_undisturbed _ (.append _ .fresh) {}
  exact hown (.append _ .fresh) _ _ hparse

end ApiGateway.Http
