import ApiGateway.Http.Finality

/-!
# The size limits and the pieces of a stream

`parse` compares a line with its limit only while the line's end is missing, and it compares the header
section nowhere. A line that is found too long is still there at the next call, and is taken when its end has
come. So every request of a stream is completed in the end, however long it is, if the calls go on. A caller
that stops at the first error does better: an oversized request is then stopped if and only if some chunk
ends more than the limit behind the start of a line and before the end of it, of the request or of one in
front of it (`limits_iff`).

`OnTrack.status` gives the status of every call of `parse` on a part of a well-formed request. The rest
follows the calls along the chunks.
-/

namespace ApiGateway.Http

open Str HttpParser Resumable

/-! ## The buffer of an incomplete request -/

namespace HttpParser

theorem addHeader_buffer (p : HttpParser) (line : Bytes) : (p.addHeader line).1.buffer = p.buffer := by
  simp only [addHeader]
  split
  · rfl
  · split_ifs <;> rfl

theorem parseHeadersLoop_buffer (fuel : ℕ) (p : HttpParser) (pos : ℕ) :
    (parseHeadersLoop fuel p pos).1.buffer = p.buffer := by
  induction fuel generalizing p pos with
  | zero => rfl
  | succ fuel ih =>
    rw [parseHeadersLoop]
    split
    · split <;> rfl
    · rename_i eol _
      split
      · rfl
      · have hadd := addHeader_buffer p (substr p.buffer pos (eol - pos))
        split
        · rename_i hq
          rwa [hq] at hadd
        · rename_i q hq
          rw [ih]
          rwa [hq] at hadd

theorem readContentLength_buffer (p : HttpParser) : p.readContentLength.1.buffer = p.buffer := by
  rw [readContentLength]
  split
  · rfl
  · split
    · rfl
    · split_ifs <;> rfl

theorem selectFraming_buffer (p : HttpParser) : p.selectFraming.1.buffer = p.buffer := by
  have hread := readContentLength_buffer p
  rw [selectFraming]
  revert hread
  rcases p.readContentLength with ⟨q, e | ⟨⟩⟩
  · exact id
  · intro hread
    simp only
    split_ifs <;> exact hread

theorem parseRequestLine_buffer (p : HttpParser) (pos : ℕ) :
    (p.parseRequestLine pos).1.buffer = p.buffer := by
  rw [parseRequestLine]
  split
  · split <;> rfl
  · rename_i eol _
    have hline : (p.analyseRequestLine (substr p.buffer pos (eol - pos))).1.buffer = p.buffer := by
      obtain ⟨m, pa, qu, v, hframe⟩ := analyseRequestLine_frame p (substr p.buffer pos (eol - pos))
      rw [hframe]
    split
    · rename_i hq
      rwa [hq] at hline
    · rename_i hq
      rwa [hq] at hline

theorem requestLinePhase_buffer (p : HttpParser) : p.requestLinePhase.1.buffer = p.buffer := by
  rw [requestLinePhase]
  split
  · have hline := parseRequestLine_buffer p 0
    revert hline
    rcases p.parseRequestLine 0 with ⟨q, e | _ | pos⟩
    · exact id
    · exact id
    · exact id
  · rfl

theorem headersPhase_buffer (p : HttpParser) : p.headersPhase.1.buffer = p.buffer := by
  rw [headersPhase]
  split
  · have hloop := parseHeadersLoop_buffer (p.buffer.length + 1) p p.consumed
    rw [parseHeaders]
    revert hloop
    rcases parseHeadersLoop (p.buffer.length + 1) p p.consumed with ⟨q, e | _ | pos⟩
    · exact id
    · exact id
    · intro hloop
      have hsel := selectFraming_buffer { q with consumed := pos }
      revert hsel
      simp only
      rcases selectFraming { q with consumed := pos } with ⟨q', e | ⟨⟩⟩
      · exact fun hsel => hsel.trans hloop
      · exact fun hsel => hsel.trans hloop
  · rfl

/-- What a call does: it stops in the request line or in the headers with the caller's request as it was, or
goes through all three phases. -/
theorem parse_cases (p : HttpParser) (out : HttpRequest) :
    (∃ status, status ≠ .Complete ∧ p.parse out = (status, p.requestLinePhase.1, out)) ∨
      p.requestLinePhase.2 = .ok true ∧
        ((∃ status, status ≠ .Complete ∧
            p.parse out = (status, p.requestLinePhase.1.headersPhase.1, out)) ∨
          p.requestLinePhase.1.headersPhase.2 = .ok true ∧ ∃ q out',
            p.requestLinePhase.1.headersPhase.1.bodyPhase out = some (q, out') ∧
              p.parse out = (.Complete, q.finish out')) := by
  rw [parse]
  rcases p.requestLinePhase with ⟨q, e | _ | _⟩
  · exact .inl ⟨.Error, by simp, rfl⟩
  · exact .inl ⟨.Incomplete, by simp, rfl⟩
  · refine .inr ⟨rfl, ?_⟩
    dsimp only
    rcases q.headersPhase with ⟨q', e | _ | _⟩
    · exact .inl ⟨.Error, by simp, rfl⟩
    · exact .inl ⟨.Incomplete, by simp, rfl⟩
    · dsimp only
      cases q'.bodyPhase out with
      | none => exact .inl ⟨.Incomplete, by simp, rfl⟩
      | some res => exact .inr ⟨rfl, res.1, res.2, rfl, rfl⟩

/-- **Unless a request is completed, the buffer is left untouched.** -/
theorem parse_buffer {p : HttpParser} {out : HttpRequest} (h : (p.parse out).1 ≠ .Complete) :
    (p.parse out).2.1.buffer = p.buffer := by
  obtain ⟨status, -, hparse⟩ | ⟨-, ⟨status, -, hparse⟩ | ⟨-, q, out', -, hparse⟩⟩ := p.parse_cases out
  · rw [hparse]
    exact requestLinePhase_buffer p
  · rw [hparse]
    exact (headersPhase_buffer _).trans (requestLinePhase_buffer p)
  · exact absurd (congrArg Prod.fst hparse) h

end HttpParser

/-! ## Requests and offsets into them -/

/-- The bytes `w` begin with a request with head `h`, and go on with `t`. -/
def Begins (h : RequestHead) (t w : Bytes) : Prop :=
  h.contentLength ≤ kMaxBodyBytes ∧
    ∃ body, body.length = h.contentLength ∧ w = h.toBytes ++ body ++ t

namespace Begins

variable {h h' : RequestHead} {t t' w : Bytes}

theorem length_eq (hw : Begins h t w) :
    w.length = h.toBytes.length + h.contentLength + t.length := by
  obtain ⟨-, body, hlen, rfl⟩ := hw
  simp only [List.length_append, hlen]

theorem append (hw : Begins h t w) (v : Bytes) : Begins h (t ++ v) (w ++ v) := by
  obtain ⟨hle, body, hlen, rfl⟩ := hw
  exact ⟨hle, body, hlen, by simp only [List.append_assoc]⟩

/-- Where a request ends is decided by its bytes. -/
theorem unique (hw : Begins h t w) (hw' : Begins h' t' w) : t = t' := by
  obtain ⟨-, body, hlen, rfl⟩ := hw
  obtain ⟨-, body', hlen', heq⟩ := hw'
  rw [List.append_assoc, List.append_assoc] at heq
  obtain ⟨hfields, hrest⟩ := RequestHead.toBytes_append_inj heq
  have hsame : h.contentLength = h'.contentLength := congrArg announcedLength hfields
  exact (List.append_inj hrest (by omega)).2

end Begins

/-- The offset `m` is more than `limit` bytes behind the start of one of the lines, and before its end. -/
def FarInside (limit : ℕ) : List FieldLine → ℕ → Prop
  | [], _ => False
  | f :: fs, m =>
    (limit < m ∧ m < f.toBytes.length + 2) ∨
      (f.toBytes.length + 2 ≤ m ∧ FarInside limit fs (m - (f.toBytes.length + 2)))

theorem length_line_append (line rest : Bytes) :
    (line ++ crlf ++ rest).length = line.length + 2 + rest.length := by
  simp only [List.length_append, crlf, List.length_cons, List.length_nil]

/-- Behind a line of `n` bytes, what follows decides. -/
theorem behind_iff (p : ℕ → Prop) (limit n m : ℕ) :
    (limit < n + m ∧ n + m < n) ∨ (n ≤ n + m ∧ p (n + m - n)) ↔ p m := by
  rw [Nat.add_sub_cancel_left]
  constructor
  · rintro (⟨-, hlt⟩ | ⟨-, h⟩)
    · omega
    · exact h
  · exact fun h => .inr ⟨by omega, h⟩

theorem farInside_cons_iff (limit m : ℕ) (f : FieldLine) (fs : List FieldLine) :
    FarInside limit (f :: fs) (f.toBytes.length + 2 + m) ↔ FarInside limit fs m :=
  behind_iff (FarInside limit fs) limit _ m

theorem FarInside.lt {limit m : ℕ} {fs : List FieldLine} (h : FarInside limit fs m) :
    m < (fieldBytes fs).length := by
  induction fs generalizing m with
  | nil => exact h.elim
  | cons f fs ih =>
    rw [fieldBytes_cons]
    simp only [List.length_append, crlf, List.length_cons, List.length_nil]
    rcases h with ⟨-, hm⟩ | ⟨-, hrest⟩
    · omega
    · have := ih hrest
      omega

/-- The offset `m` into a request is so far inside one of the lines of its head that a call of `parse` on
the bytes in front of it gives up. -/
def RequestHead.Trips (h : RequestHead) (m : ℕ) : Prop :=
  (kMaxRequestLineLen < m ∧ m < h.line.toBytes.length + 2) ∨
    (h.line.toBytes.length + 2 ≤ m ∧
      FarInside kMaxHeaderBytes h.fields (m - (h.line.toBytes.length + 2)))

theorem RequestHead.trips_add_iff (h : RequestHead) (m : ℕ) :
    h.Trips (h.line.toBytes.length + 2 + m) ↔ FarInside kMaxHeaderBytes h.fields m :=
  behind_iff (FarInside kMaxHeaderBytes h.fields) kMaxRequestLineLen _ m

theorem RequestHead.length_toBytes (h : RequestHead) :
    h.toBytes.length = h.line.toBytes.length + 2 + (fieldBytes h.fields).length + 2 := by
  simp only [toBytes, List.length_append, crlf, List.length_cons, List.length_nil]

theorem RequestHead.Trips.lt {h : RequestHead} {m : ℕ} (htrips : h.Trips m) :
    m < h.toBytes.length := by
  rw [h.length_toBytes]
  rcases htrips with ⟨-, hm⟩ | ⟨-, hfar⟩
  · omega
  · have := hfar.lt
    omega

/-! ## The status of a call on part of a request -/

/-- A part of the input that ends before the line does has no complete line. -/
theorem cut_eq_none_of_lt {line rest x y : Bytes} (hline : ¬ crlf <:+: line)
    (hx : x ++ y = line ++ crlf ++ rest) (hlt : x.length < line.length + 2) : cut crlf x = none := by
  cases hcut : cut crlf x with
  | none => rfl
  | some lr =>
    have hwhole := cut_append y hcut
    rw [hx, cut_crlf rest hline] at hwhole
    have hl : line = lr.1 := (Prod.mk.inj (Option.some.inj hwhole)).1
    have := Progress.length_add_two_le_of_cut hcut
    have := congrArg List.length (append_of_cut hcut)
    simp only [List.length_append, crlf, List.length_cons, List.length_nil, ← hl] at this
    omega

/-- A part of the input that does not end before the line does begins with it. -/
theorem exists_rest_of_le {line rest x y : Bytes} (hx : x ++ y = line ++ crlf ++ rest)
    (hle : line.length + 2 ≤ x.length) : ∃ x', x = line ++ crlf ++ x' ∧ x' ++ y = rest := by
  have hbegins : line ++ crlf <+: x := by
    refine List.prefix_of_prefix_length_le ⟨rest, rfl⟩ ⟨y, hx⟩ ?_
    simpa [crlf] using hle
  obtain ⟨x', rfl⟩ := hbegins
  rw [List.append_assoc] at hx
  exact ⟨x', rfl, List.append_cancel_left hx⟩

/-- Where the scanner gets to on the part `x` of a header section. It gives up if `x` ends far inside a
line, and waits if it ends elsewhere in front of the body. -/
theorem headers_end {fs : List FieldLine} {k : Head} {n : ℕ} {x y w : Bytes} (htakes : k.Takes fs)
    (hbody : bodyLength (k.withFields fs).headers = some n)
    (hx : x ++ y = fieldBytes fs ++ crlf ++ w) :
    ∃ g u, scanner.Silent (.headers k) x g u ∧
      ((g.step u = .fail ∧ FarInside kMaxHeaderBytes fs x.length) ∨
        (g.step u = .more ∧ ¬ FarInside kMaxHeaderBytes fs x.length ∧
          x.length < (fieldBytes fs).length + 2) ∨
        (g = .body (k.withFields fs) n ∧ x = fieldBytes fs ++ crlf ++ u)) := by
  induction fs generalizing k x with
  | nil =>
    have hx' : x ++ y = [] ++ crlf ++ w := hx
    by_cases hlt : x.length < 2
    · have hcut := cut_eq_none_of_lt (by decide) hx' hlt
      have hmore : Progress.step (.headers k) x = .more := by
        rw [Progress.step_of_cut_eq_none (Progress.inHead_headers k) hcut, if_neg]
        simp only [Progress.limit, kMaxHeaderBytes]
        omega
      exact ⟨_, x, .refl _ _, .inr (.inl ⟨hmore, id, by simpa [fieldBytes] using hlt⟩)⟩
    · obtain ⟨x', rfl, rfl⟩ := exists_rest_of_le hx' (by rw [List.length_nil]; omega)
      exact ⟨_, x', .step (step_blank hbody x') (.refl _ _), .inr (.inr ⟨rfl, rfl⟩)⟩
  | cons f fs ih =>
    rw [fieldBytes_cons_append] at hx
    by_cases hlt : x.length < f.toBytes.length + 2
    · have hcut := cut_eq_none_of_lt f.not_crlf_infix_toBytes hx hlt
      have hstep := Progress.step_of_cut_eq_none (Progress.inHead_headers k) hcut
      rw [Progress.limit] at hstep
      refine ⟨_, x, .refl _ _, ?_⟩
      by_cases hlong : kMaxHeaderBytes < x.length
      · rw [if_pos hlong] at hstep
        exact .inl ⟨hstep, .inl ⟨hlong, hlt⟩⟩
      · rw [if_neg hlong] at hstep
        refine .inr (.inl ⟨hstep, ?_, ?_⟩)
        · rintro (⟨h, -⟩ | ⟨h, -⟩) <;> omega
        · rw [fieldBytes_cons, length_line_append]
          omega
    · obtain ⟨x', rfl, hx'⟩ := exists_rest_of_le hx (by omega)
      rw [Head.withFields_cons] at hbody ⊢
      obtain ⟨g, u, hsil, hend⟩ := ih htakes.2 hbody hx'
      refine ⟨g, u, .step (step_field htakes.1 x') hsil, ?_⟩
      rw [length_line_append, farInside_cons_iff, fieldBytes_cons]
      rcases hend with ⟨hfail, hin⟩ | ⟨hmore, hout, hlt'⟩ | ⟨hg, hu⟩
      · exact .inl ⟨hfail, hin⟩
      · refine .inr (.inl ⟨hmore, hout, ?_⟩)
        rw [length_line_append]
        omega
      · refine .inr (.inr ⟨hg, ?_⟩)
        rw [hu]
        simp only [List.append_assoc]

/-- Where the scanner gets to on the part `x` of a request. -/
theorem request_end {h : RequestHead} {t x y : Bytes} (hw : Begins h t (x ++ y)) :
    ∃ g u, scanner.Silent .requestLine x g u ∧
      ((g.step u = .fail ∧ h.Trips x.length) ∨
        (g.step u = .more ∧ ¬ h.Trips x.length ∧ x.length < h.toBytes.length + h.contentLength) ∨
        (∃ r v, g.step u = .next .requestLine v (some r) ∧
          h.toBytes.length + h.contentLength ≤ x.length)) := by
  obtain ⟨hle, body, hlen, hx⟩ := hw
  have hx' : x ++ y = h.line.toBytes ++ crlf ++ (fieldBytes h.fields ++ crlf ++ (body ++ t)) := by
    rw [hx, RequestHead.toBytes]
    simp only [List.append_assoc]
  have hsize := h.length_toBytes
  by_cases hlt : x.length < h.line.toBytes.length + 2
  · have hcut := cut_eq_none_of_lt h.line.not_crlf_infix_toBytes hx' hlt
    have hstep := Progress.step_of_cut_eq_none Progress.inHead_requestLine hcut
    rw [Progress.limit] at hstep
    refine ⟨_, x, .refl _ _, ?_⟩
    by_cases hlong : kMaxRequestLineLen < x.length
    · rw [if_pos hlong] at hstep
      exact .inl ⟨hstep, .inl ⟨hlong, hlt⟩⟩
    · rw [if_neg hlong] at hstep
      refine .inr (.inl ⟨hstep, ?_, by omega⟩)
      rintro (⟨hlong', -⟩ | ⟨hge, -⟩) <;> omega
  · obtain ⟨z, rfl, hz⟩ := exists_rest_of_le hx' (by omega)
    have hbody := (bodyLength_insertFields_iff h.framing_once).mpr ⟨h.framed, rfl, hle⟩
    obtain ⟨g, u, hsil, hend⟩ := headers_end h.takes hbody hz
    refine ⟨g, u, .step (step_requestLine h.line z) hsil, ?_⟩
    rw [length_line_append, h.trips_add_iff]
    rcases hend with ⟨hfail, hin⟩ | ⟨hmore, hout, hlt'⟩ | ⟨rfl, hu⟩
    · exact .inl ⟨hfail, hin⟩
    · exact .inr (.inl ⟨hmore, hout, by omega⟩)
    · -- the head is complete, and the body decides
      have hzlen : z.length = (fieldBytes h.fields).length + 2 + u.length := by
        rw [hu, length_line_append]
      by_cases hshort : u.length < announcedLength h.fields
      · refine .inr (.inl ⟨by rw [Progress.step, if_pos hshort], fun hfar => ?_, ?_⟩)
        · have := hfar.lt
          omega
        · rw [RequestHead.contentLength]
          omega
      · refine .inr (.inr ⟨_, _, by rw [Progress.step, if_neg hshort], ?_⟩)
        rw [RequestHead.contentLength]
        omega

/-- There the scanner reads no further line. -/
theorem stops_of_end {g : Progress} {u : Bytes} {far inside whole : Prop}
    (hend : (g.step u = .fail ∧ far) ∨ (g.step u = .more ∧ inside) ∨
      ∃ r v, g.step u = .next .requestLine v (some r) ∧ whole) : ∀ k v, g.step u ≠ .next k v none := by
  rcases hend with ⟨hstep, -⟩ | ⟨hstep, -⟩ | ⟨r, v, hstep, -⟩
  · simp [hstep]
  · simp [hstep]
  · simp [hstep]

/-- No line of a well-formed request is refused: the scanner gets to its end. -/
theorem not_refused {h : RequestHead} {t w u y : Bytes} {g : Progress} (hw : Begins h t (w ++ y))
    (hsil : scanner.Silent .requestLine w g u) (hg : g.InHead) {line rest : Bytes}
    (hcut : cut crlf u = some (line, rest)) : g.readLine line ≠ none := by
  intro hread
  have hstuck : g.step (u ++ y) = .fail := Progress.step_of_readLine_eq_none hg (cut_append y hcut) hread
  have hlen := hw.length_eq
  rw [← List.append_nil (w ++ y)] at hw
  obtain ⟨k, v, hsil', hend⟩ := request_end hw
  obtain ⟨rfl, rfl⟩ := (hsil.append y).unique hsil' (by simp [scanner_step, hstuck]) (stops_of_end hend)
  rcases hend with ⟨-, htrips⟩ | ⟨hstep, -⟩ | ⟨r, x, hstep, -⟩
  · have := htrips.lt
    omega
  · simp [hstuck] at hstep
  · simp [hstuck] at hstep

/-! ## The calls along the chunks -/

namespace HttpParser

/-- What the parser has read of its buffer it has read silently, from the start. -/
def OnTrack (p : HttpParser) : Prop := ∃ g u, Rep p g u ∧ scanner.Silent .requestLine p.buffer g u

theorem onTrack_start (v : Bytes) : OnTrack { buffer := v } := ⟨_, v, rep_start v, .refl _ _⟩

namespace OnTrack

variable {p q : HttpParser} {h : RequestHead} {t y : Bytes} {out r : HttpRequest}

theorem matches_parse (hp : p.OnTrack) (out : HttpRequest) :
    Matches .requestLine p.buffer out (p.parse out) := by
  obtain ⟨g, u, hrep, hsil⟩ := hp
  exact (parse_sim hrep out).of_silent hsil

theorem append (hp : p.OnTrack) (c : Bytes) : (p.append c).OnTrack := by
  obtain ⟨g, u, hrep, hsil⟩ := hp
  exact ⟨g, u ++ c, hrep.append c, hsil.append c⟩

/-- An incomplete request goes on in the same buffer. -/
theorem incomplete (hp : p.OnTrack) (hparse : p.parse out = (.Incomplete, q, r)) :
    q.buffer = p.buffer ∧ q.OnTrack := by
  have hstatus : (p.parse out).1 ≠ .Complete := by simp [hparse]
  have hbuffer := parse_buffer hstatus
  have hsim := hp.matches_parse out
  rw [hparse] at hbuffer hsim
  obtain ⟨-, g, w, hsil, -, hq⟩ := hsim
  exact ⟨hbuffer, g, w, hq, hbuffer ▸ hsil⟩

/-- A complete request is taken off the buffer. -/
theorem complete (hp : p.OnTrack) (hparse : p.parse out = (.Complete, q, r)) :
    q.OnTrack ∧ ∃ h, Begins h q.buffer p.buffer := by
  have hsim := hp.matches_parse out
  rw [hparse] at hsim
  obtain ⟨hq, r', ⟨hd, body, hle, hlen, hb, -⟩, -⟩ := hsim.accepts
  rw [hq]
  exact ⟨onTrack_start _, hd, hle, body, hlen, hb⟩

/-- **The status of a call** on a parser whose buffer is part of a well-formed request. -/
theorem status (hp : p.OnTrack) (hw : Begins h t (p.buffer ++ y)) (out : HttpRequest) :
    ((p.parse out).1 = .Error ∧ h.Trips p.buffer.length) ∨
    ((p.parse out).1 = .Incomplete ∧ ¬ h.Trips p.buffer.length ∧
      p.buffer.length < h.toBytes.length + h.contentLength) ∨
    ((p.parse out).1 = .Complete ∧ h.toBytes.length + h.contentLength ≤ p.buffer.length) := by
  obtain ⟨g, u, hsil, hend⟩ := request_end hw
  have hres := (hp.matches_parse out).at_end hsil (stops_of_end hend)
  revert hres
  rcases p.parse out with ⟨_ | _ | _, q, out'⟩
  · rintro ⟨hmore, -⟩
    simp only [hmore, reduceCtorEq, false_and, exists_false, true_and, false_or, or_false] at hend
    exact .inr (.inl ⟨rfl, hend⟩)
  · rintro ⟨r, v, hstep, -⟩
    simp only [hstep, reduceCtorEq, false_and, false_or] at hend
    obtain ⟨r', v', -, hle⟩ := hend
    exact .inr (.inr ⟨rfl, hle⟩)
  · rintro ⟨hfail, -⟩
    simp only [hfail, reduceCtorEq, false_and, exists_false, true_and, or_false] at hend
    exact .inl ⟨rfl, hend⟩

/-- An error in the middle of a well-formed request leaves everything in its place. -/
theorem error (hp : p.OnTrack) (hw : Begins h t (p.buffer ++ y)) (hparse : p.parse out = (.Error, q, r)) :
    q.buffer = p.buffer ∧ q.OnTrack := by
  have hstatus : (p.parse out).1 ≠ .Complete := by simp [hparse]
  have hbuffer := parse_buffer hstatus
  rw [hparse] at hbuffer
  obtain ⟨g, u, hrep, hsil⟩ := hp
  obtain ⟨g', w, hsil', hfail, hleaves⟩ := parse_error hrep hparse
  have hopen : cut crlf w = none := by
    refine Option.eq_none_iff_forall_ne_some.mpr fun lr hcut => ?_
    obtain ⟨hg, ⟨line, rest, hcut', hread⟩ | ⟨hnone, -⟩⟩ := Progress.step_fail hfail
    · exact not_refused hw (hsil.trans hsil') hg hcut' hread
    · simp [hcut] at hnone
  refine ⟨hbuffer, ?_⟩
  cases hleaves with
  | same hq => exact ⟨g', w, hq, hbuffer ▸ hsil.trans hsil'⟩
  | counted hcut => simp [hopen] at hcut
  | skipped hcut => simp [hopen] at hcut

/-- A request that is completed has arrived as a whole. -/
theorem arrived (hp : p.OnTrack) (hw : Begins h t (p.buffer ++ y)) (hparse : (p.parse out).1 = .Complete) :
    h.toBytes.length + h.contentLength ≤ p.buffer.length := by
  rcases hp.status hw out with ⟨hstatus, -⟩ | ⟨hstatus, -⟩ | ⟨-, hle⟩
  · simp [hparse] at hstatus
  · simp [hparse] at hstatus
  · exact hle

/-- A request that is waited for has not, and what there is of it does not end far inside a line. -/
theorem not_arrived (hp : p.OnTrack) (hw : Begins h t (p.buffer ++ y)) (hparse : (p.parse out).1 = .Incomplete) :
    ¬ h.Trips p.buffer.length ∧ p.buffer.length < h.toBytes.length + h.contentLength := by
  rcases hp.status hw out with ⟨hstatus, -⟩ | ⟨-, hinside⟩ | ⟨hstatus, -⟩
  · simp [hparse] at hstatus
  · exact hinside
  · simp [hparse] at hstatus

/-- No part of the input that holds a completed request ends inside one of its lines. -/
theorem not_trips (hp : p.OnTrack) (hparse : (p.parse out).1 = .Complete) {before after : List Bytes} {x : Bytes}
    (hw : Begins h t (p.buffer ++ (before ++ after).flatten))
    (hx : p.buffer ++ (before ++ after).flatten = x ++ after.flatten) : ¬ h.Trips x.length := by
  intro htrips
  rw [List.flatten_append, ← List.append_assoc] at hx
  have hlen := congrArg List.length (List.append_cancel_right hx)
  have hle := hp.arrived hw hparse
  have hlt := htrips.lt
  rw [List.length_append] at hlen
  omega

end OnTrack

/-- The parser has refused a line of the head at the front of its buffer, for good. -/
def Refusing (p : HttpParser) : Prop :=
  p.Dead ∧ ∃ g w line rest, scanner.Silent .requestLine p.buffer g w ∧ g.InHead ∧
    cut crlf w = some (line, rest) ∧ g.readLine line = none

theorem Refusing.append {p : HttpParser} (h : p.Refusing) (c : Bytes) : (p.append c).Refusing := by
  obtain ⟨⟨k, u, hrep, hlost⟩, g, w, line, rest, hsil, hg, hcut, hread⟩ := h
  exact ⟨⟨k, u ++ c, hrep.append c, hlost.append c⟩, g, w ++ c, line, rest ++ c, hsil.append c, hg,
    cut_append c hcut, hread⟩

theorem Refusing.parse {p : HttpParser} (h : p.Refusing) (out : HttpRequest) :
    (p.parse out).1 ≠ .Complete ∧ (p.parse out).2.1.Refusing := by
  obtain ⟨hstatus, hdead⟩ := h.1.parse out
  refine ⟨hstatus, hdead, ?_⟩
  rw [parse_buffer hstatus]
  exact h.2

/-- A call leaves the parser on track, or with a line or a framing that it refuses for good. -/
theorem OnTrack.parse {p : HttpParser} (hp : p.OnTrack) (out : HttpRequest) :
    (p.parse out).2.1.OnTrack ∨ (p.parse out).1 = .Error ∧ (p.parse out).2.1.Refusing := by
  rcases hres : p.parse out with ⟨_ | _ | _, q, r⟩
  · exact .inl (hp.incomplete hres).2
  · exact .inl (hp.complete hres).1
  · obtain ⟨g, u, hrep, hsil⟩ := hp
    obtain ⟨g', w, hsil', hfail, hleaves⟩ := parse_error hrep hres
    have hfailed : (p.parse out).1 ≠ .Complete := by simp [hres]
    have hbuffer := parse_buffer hfailed
    rw [hres] at hbuffer
    have hreads := hsil.trans hsil'
    rw [← hbuffer] at hreads
    -- a line that has arrived is what the call has failed at
    have hstuck : ∀ line rest, cut crlf w = some (line, rest) → g'.InHead ∧ g'.readLine line = none := by
      intro line rest hcut
      obtain ⟨hg, ⟨line', rest', hcut', hread⟩ | ⟨hnone, -⟩⟩ := Progress.step_fail hfail
      · obtain ⟨rfl, -⟩ := Prod.mk.inj (Option.some.inj (hcut'.symm.trans hcut))
        exact ⟨hg, hread⟩
      · simp [hcut] at hnone
    cases hleaves with
    | same hq => exact .inl ⟨g', w, hq, hreads⟩
    | counted hcut hn hq =>
      obtain ⟨hg, hread⟩ := hstuck _ _ hcut
      exact .inr ⟨rfl, ⟨_, w, hq, (lost_of_fail hfail hcut).recount hn⟩, _, w, _, _, hreads, hg, hcut, hread⟩
    | @skipped k _ rest _ hcut hbody hq =>
      obtain ⟨hg, hread⟩ := hstuck _ _ hcut
      exact .inr ⟨rfl, ⟨_, rest, hq, Progress.Misframed.lost (g := .headers k) hbody rest⟩, _, w, _, _, hreads, hg,
        hcut, hread⟩

end HttpParser

/-- The calls of `parse` while a stream arrives: from a call on `p` with the chunks `cs` still to come,
there is a later call on `q` with `ds` still to come. A completed request is followed by another call, an
incomplete one by the next chunk. After an error `onReadable` stops, but it is called again when the next chunk
arrives while its answer is not yet sent. The flag says whether there has been an error. -/
inductive Calls : Bool → HttpParser → List Bytes → HttpParser → List Bytes → Prop
  | refl (p : HttpParser) (cs : List Bytes) : Calls false p cs p cs
  | complete {failed : Bool} {p p' q : HttpParser} {r : HttpRequest} {cs ds : List Bytes} :
      p.parse {} = (.Complete, p', r) → Calls failed p' cs q ds → Calls failed p cs q ds
  | incomplete {failed : Bool} {p p' q : HttpParser} {r : HttpRequest} {c : Bytes} {cs ds : List Bytes} :
      p.parse {} = (.Incomplete, p', r) → Calls failed (p'.append c) cs q ds → Calls failed p (c :: cs) q ds
  | error {failed : Bool} {p p' q : HttpParser} {r : HttpRequest} {c : Bytes} {cs ds : List Bytes} :
      p.parse {} = (.Error, p', r) → Calls failed (p'.append c) cs q ds → Calls true p (c :: cs) q ds

/-- In the input `w` a request starts at the suffix `w'`, behind a number of well-formed requests. -/
inductive Starts : Bytes → Bytes → Prop
  | refl (w : Bytes) : Starts w w
  | next {h : RequestHead} {t w w' : Bytes} : Begins h t w → Starts t w' → Starts w w'

theorem Begins.length_lt {h : RequestHead} {t w : Bytes} (hw : Begins h t w) :
    t.length < w.length := by
  have := hw.length_eq
  have := h.length_toBytes
  omega

theorem Starts.length_le {w w' : Bytes} (h : Starts w w') : w'.length ≤ w.length := by
  induction h with
  | refl => exact le_rfl
  | next hw _ ih => exact ih.trans hw.length_lt.le

/-- Starting over does not get back. -/
theorem Starts.antisymm {w w' : Bytes} (h : Starts w w') (h' : Starts w' w) : w' = w := by
  cases h with
  | refl => rfl
  | next hw hrest =>
    have := hw.length_lt
    have := hrest.length_le
    have := h'.length_le
    omega

/-- A parser that refuses a line keeps refusing it. -/
theorem Calls.refusing {failed : Bool} {p q : HttpParser} {cs ds : List Bytes} (hcalls : Calls failed p cs q ds)
    (hp : p.Refusing) : q.Refusing := by
  induction hcalls with
  | refl => exact hp
  | complete hparse _ _ => exact absurd (by rw [hparse]) (hp.parse {}).1
  | incomplete hparse _ ih =>
    have hnext := (hp.parse {}).2
    rw [hparse] at hnext
    exact ih (hnext.append _)
  | error hparse _ ih =>
    have hnext := (hp.parse {}).2
    rw [hparse] at hnext
    exact ih (hnext.append _)

/-- What a call leads to in the stream as a whole. -/
theorem Calls.starts {failed : Bool} {p q : HttpParser} {cs ds : List Bytes} (hcalls : Calls failed p cs q ds)
    (hp : p.OnTrack) :
    (q.OnTrack ∧ Starts (p.buffer ++ cs.flatten) (q.buffer ++ ds.flatten)) ∨ (failed = true ∧ q.Refusing) := by
  induction hcalls with
  | refl => exact .inl ⟨hp, .refl _⟩
  | @complete failed p p' q r cs ds hparse _ ih =>
    obtain ⟨hp', h, hw⟩ := hp.complete hparse
    exact (ih hp').imp_left fun hq => ⟨hq.1, .next (hw.append cs.flatten) hq.2⟩
  | @incomplete failed p p' q r c cs ds hparse _ ih =>
    obtain ⟨hbuffer, hp'⟩ := hp.incomplete hparse
    have hnext := ih (hp'.append c)
    rwa [HttpParser.append, hbuffer, List.append_assoc, ← List.flatten_cons] at hnext
  | @error failed p p' q r c cs ds hparse hcalls ih =>
    have hbuffer : (p.parse {}).2.1.buffer = p.buffer := parse_buffer (by simp [hparse])
    have hparsed := hp.parse {}
    rw [hparse] at hbuffer hparsed
    rcases hparsed with hp' | ⟨-, hrefusing⟩
    · have hnext := ih (hp'.append c)
      rw [HttpParser.append, hbuffer, List.append_assoc, ← List.flatten_cons] at hnext
      exact hnext.imp_right fun hq => ⟨rfl, hq.2⟩
    · exact .inr ⟨rfl, hcalls.refusing (hrefusing.append c)⟩

/-- A call that completes a request is on track. -/
theorem Calls.starts_of_complete {failed : Bool} {p q : HttpParser} {cs ds : List Bytes}
    (hcalls : Calls failed p cs q ds) (hp : p.OnTrack) (hq : (q.parse {}).1 = .Complete) :
    q.OnTrack ∧ Starts (p.buffer ++ cs.flatten) (q.buffer ++ ds.flatten) := by
  rcases hcalls.starts hp with htrack | ⟨-, hrefusing⟩
  · exact htrack
  · exact absurd hq (hrefusing.parse {}).1

/-- One of the chunks `cs` ends far inside a line of the request that starts at `w` in the stream `s`, or of
one in front of it. -/
def CaughtBefore (cs : List Bytes) (s w : Bytes) : Prop :=
  ∃ (w₁ : Bytes) (h : RequestHead) (t : Bytes) (before after : List Bytes) (x : Bytes),
    Starts s w₁ ∧ Starts w₁ w ∧ Begins h t w₁ ∧ cs = before ++ after ∧ w₁ = x ++ after.flatten ∧
      h.Trips x.length

/-- **A caught request is not completed** before the first error, nor is any behind it. -/
theorem Calls.not_caughtBefore {p q : HttpParser} {cs ds : List Bytes} (hcalls : Calls false p cs q ds)
    (hp : p.OnTrack) (hq : (q.parse {}).1 = .Complete) :
    ¬ CaughtBefore cs (p.buffer ++ cs.flatten) (q.buffer ++ ds.flatten) := by
  generalize hfailed : false = failed at hcalls
  induction hcalls with
  | error _ _ _ => cases hfailed
  | refl p cs =>
    rintro ⟨w₁, h, t, before, after, x, hs, hs', hw, rfl, hx, htrips⟩
    obtain rfl := hs.antisymm hs'
    exact hp.not_trips hq hw hx htrips
  | @complete _ p p' q r cs ds hparse _ ih =>
    obtain ⟨hp', h₀, hw₀⟩ := hp.complete hparse
    rintro ⟨w₁, h, t, before, after, x, hs, hs', hw, rfl, hx, htrips⟩
    cases hs with
    | refl =>
      have hcomplete : (p.parse {}).1 = .Complete := by rw [hparse]
      exact hp.not_trips hcomplete hw hx htrips
    | next hw₀' hrest =>
      obtain rfl := (hw₀.append _).unique hw₀'
      exact ih hp' hq hfailed ⟨w₁, h, t, before, after, x, hrest, hs', hw, rfl, hx, htrips⟩
  | @incomplete _ p p' q r c cs ds hparse hrest ih =>
    obtain ⟨hbuffer, hp'⟩ := hp.incomplete hparse
    have hstatus : (p.parse {}).1 = .Incomplete := by rw [hparse]
    rintro ⟨w₁, h, t, before, after, x, hs, hs', hw, hcs, hx, htrips⟩
    cases before with
    | nil =>
      -- the call is made where the first of these chunks is still to come
      rw [List.nil_append] at hcs
      subst hcs
      cases hs with
      | refl =>
        obtain rfl := List.append_cancel_right hx
        exact (hp.not_arrived hw hstatus).1 htrips
      | next hw₀ hrest' =>
        -- the request in front has arrived as a whole, and would have been completed
        have hlen := hw₀.length_eq
        have hle := hrest'.length_le
        rw [hx] at hle
        have hlt := (hp.not_arrived hw₀ hstatus).2
        simp only [List.length_append] at hlen hle
        omega
    | cons c' before =>
      obtain ⟨rfl, rfl⟩ := List.cons.inj hcs
      refine ih (hp'.append c) hq hfailed ⟨w₁, h, t, before, after, x, ?_, hs', hw, rfl, hx, htrips⟩
      rwa [HttpParser.append, hbuffer, List.append_assoc, ← List.flatten_cons]

/-- A request that has arrived as a whole is part of what has arrived. -/
theorem Begins.of_append {h : RequestHead} {t x y : Bytes} (hw : Begins h t (x ++ y))
    (hle : h.toBytes.length + h.contentLength ≤ x.length) : ∃ t', Begins h t' x ∧ t' ++ y = t := by
  obtain ⟨hmax, body, hlen, hx⟩ := hw
  have hbegins : h.toBytes ++ body <+: x := by
    refine List.prefix_of_prefix_length_le ⟨t, rfl⟩ ⟨y, hx⟩ ?_
    simpa [hlen] using hle
  obtain ⟨t', rfl⟩ := hbegins
  rw [List.append_assoc (h.toBytes ++ body)] at hx
  exact ⟨t', ⟨hmax, body, hlen, rfl⟩, List.append_cancel_left hx⟩

theorem CaughtBefore.cons {c : Bytes} {cs : List Bytes} {s w : Bytes} (h : CaughtBefore cs s w) :
    CaughtBefore (c :: cs) s w := by
  obtain ⟨w₁, h₁, t₁, before, after, x, hs, hs', hw₁, rfl, hx, htrips⟩ := h
  exact ⟨w₁, h₁, t₁, c :: before, after, x, hs, hs', hw₁, rfl, hx, htrips⟩

theorem CaughtBefore.next {h : RequestHead} {cs : List Bytes} {s t w : Bytes} (hw : Begins h t s)
    (hcaught : CaughtBefore cs t w) : CaughtBefore cs s w := by
  obtain ⟨w₁, h₁, t₁, before, after, x, hs, hs', hw₁, hcs, hx, htrips⟩ := hcaught
  exact ⟨w₁, h₁, t₁, before, after, x, .next hw hs, hs', hw₁, hcs, hx, htrips⟩

/-- **Every request of the stream is completed**, and without an error before it unless it is caught. -/
theorem exists_calls (cs : List Bytes) {p : HttpParser} (hp : p.OnTrack) {w t : Bytes} {h : RequestHead}
    (hstarts : Starts (p.buffer ++ cs.flatten) w) (hw : Begins h t w) :
    ∃ failed q ds, Calls failed p cs q ds ∧ (q.parse {}).1 = .Complete ∧ q.buffer ++ ds.flatten = w ∧
      (failed = true → CaughtBefore cs (p.buffer ++ cs.flatten) w) := by
  induction hn : p.buffer.length + cs.flatten.length + cs.length using Nat.strongRecOn
    generalizing p cs with
  | ind n ih =>
    subst hn
    -- the request at the front of the stream: the one in question, or one before it
    obtain ⟨h₀, t₀, hw₀⟩ : ∃ h₀ t₀, Begins h₀ t₀ (p.buffer ++ cs.flatten) := by
      cases hstarts with
      | refl => exact ⟨h, t, hw⟩
      | next hw₀ _ => exact ⟨_, _, hw₀⟩
    -- where it has not arrived as a whole, another chunk comes
    have hmore : ∀ p' : HttpParser, p'.buffer = p.buffer → p'.OnTrack →
        p.buffer.length < h₀.toBytes.length + h₀.contentLength →
        ∃ c cs' failed q ds, cs = c :: cs' ∧ Calls failed (p'.append c) cs' q ds ∧
          (q.parse {}).1 = .Complete ∧ q.buffer ++ ds.flatten = w ∧
          (failed = true → CaughtBefore cs (p.buffer ++ cs.flatten) w) := by
      intro p' hbuffer hp' hlt
      cases cs with
      | nil =>
        have := hw₀.length_eq
        simp only [List.flatten_nil, List.append_nil] at this
        omega
      | cons c cs =>
        have hstream : (p'.append c).buffer ++ cs.flatten = p.buffer ++ (c :: cs).flatten := by
          rw [HttpParser.append, hbuffer, List.append_assoc, List.flatten_cons]
        have hsize := congrArg List.length hstream
        simp only [List.length_append] at hsize
        rw [← hstream] at hstarts ⊢
        obtain ⟨failed, q, ds, hcalls, hq, hqw, hcaught⟩ := ih _ (by simp only [List.length_cons]; omega) cs
          (hp'.append c) hstarts rfl
        exact ⟨c, cs, failed, q, ds, rfl, hcalls, hq, hqw, fun hfailed => (hcaught hfailed).cons⟩
    rcases hres : p.parse {} with ⟨status, p', r⟩
    rcases hp.status hw₀ {} with ⟨hstatus, htrips⟩ | ⟨hstatus, -, hlt⟩ | ⟨hstatus, hle⟩
    · obtain rfl : status = .Error := by simpa [hres] using hstatus
      obtain ⟨hbuffer, hp'⟩ := hp.error hw₀ hres
      obtain ⟨c, cs', failed, q, ds, rfl, hcalls, hq, hqw, -⟩ :=
        hmore p' hbuffer hp' (htrips.lt.trans_le (Nat.le_add_right _ _))
      exact ⟨true, q, ds, .error hres hcalls, hq, hqw,
        fun _ => ⟨_, h₀, t₀, [], _, p.buffer, .refl _, hstarts, hw₀, rfl, rfl, htrips⟩⟩
    · obtain rfl : status = .Incomplete := by simpa [hres] using hstatus
      obtain ⟨hbuffer, hp'⟩ := hp.incomplete hres
      obtain ⟨c, cs', failed, q, ds, rfl, hcalls, hrest⟩ := hmore p' hbuffer hp' hlt
      exact ⟨failed, q, ds, .incomplete hres hcalls, hrest⟩
    · obtain rfl : status = .Complete := by simpa [hres] using hstatus
      cases hstarts with
      | refl => exact ⟨false, p, cs, .refl _ _, by simp [hres], rfl, by simp⟩
      | next hw₁ hrest =>
        obtain ⟨hp', h₂, hw₂⟩ := hp.complete hres
        obtain rfl := (hw₂.append cs.flatten).unique hw₁
        obtain ⟨failed, q, ds, hcalls, hq, hqw, hcaught⟩ := ih _ (by have := hw₂.length_lt; omega) cs hp' hrest rfl
        exact ⟨failed, q, ds, .complete hres hcalls, hq, hqw, fun hfailed => .next hw₁ (hcaught hfailed)⟩

/-- The head keeps to the limits the parser announces. -/
def RequestHead.WithinLimits (h : RequestHead) : Prop :=
  h.line.toBytes.length ≤ kMaxRequestLineLen ∧ (fieldBytes h.fields).length ≤ kMaxHeaderBytes

/-- **When the size limits hold.** Let a stream arrive in chunks. Every request that `parse` completes is
within the limits if and only if every request of the stream is, whatever the chunks. If no call is made after
an error, it is enough that each request of the stream that is not is caught: a chunk ends far inside a line of
it, or of a request in front of it. -/
theorem limits_iff (chunks : List Bytes) :
    ((∀ failed q ds, Calls failed {} chunks q ds → (q.parse {}).1 = .Complete →
        ∀ h t, Begins h t q.buffer → h.WithinLimits) ↔
      ∀ w h t, Starts chunks.flatten w → Begins h t w → h.WithinLimits) ∧
    ((∀ q ds, Calls false {} chunks q ds → (q.parse {}).1 = .Complete →
        ∀ h t, Begins h t q.buffer → h.WithinLimits) ↔
      ∀ w h t, Starts chunks.flatten w → Begins h t w → ¬ h.WithinLimits →
        CaughtBefore chunks chunks.flatten w) := by
  have hfresh := onTrack_start []
  -- a call that completes the request at `w` has all of it in its buffer
  have hexists : ∀ w h t, Starts chunks.flatten w → Begins h t w → ∃ failed q ds t', Calls failed {} chunks q ds ∧
      (q.parse {}).1 = .Complete ∧ Begins h t' q.buffer ∧
      (failed = true → CaughtBefore chunks chunks.flatten w) := by
    intro w h t hstarts hw
    obtain ⟨failed, q, ds, hcalls, hq, rfl, hcaught⟩ := exists_calls chunks hfresh hstarts hw
    obtain ⟨t', hw', -⟩ := hw.of_append ((hcalls.starts_of_complete hfresh hq).1.arrived hw hq)
    exact ⟨failed, q, ds, t', hcalls, hq, hw', hcaught⟩
  refine ⟨⟨fun hlimits w h t hstarts hw => ?_, fun hlimits failed q ds hcalls hq h t hw => ?_⟩,
    ⟨fun hlimits w h t hstarts hw hover => ?_, fun hcaught q ds hcalls hq h t hw => ?_⟩⟩
  · obtain ⟨failed, q, ds, t', hcalls, hq, hw', -⟩ := hexists w h t hstarts hw
    exact hlimits failed q ds hcalls hq h t' hw'
  · exact hlimits _ h _ (hcalls.starts_of_complete hfresh hq).2 (hw.append ds.flatten)
  · obtain ⟨failed, q, ds, t', hcalls, hq, hw', hcaught⟩ := hexists w h t hstarts hw
    cases failed with
    | false => exact absurd (hlimits q ds hcalls hq h t' hw') hover
    | true => exact hcaught rfl
  · by_contra hover
    exact hcalls.not_caughtBefore hfresh hq
      (hcaught _ h _ (hcalls.starts_of_complete hfresh hq).2 (hw.append ds.flatten) hover)

/-- **A request line above its limit.** In one chunk with its end it is not compared with the limit. -/
theorem oversized_line_completed :
    ∃ q ds h t,
      Calls false {} [openLine kMaxRequestLineLen ++ bytes " HTTP/1.1" ++ crlf ++ crlf] q ds ∧
      (q.parse {}).1 = .Complete ∧ Begins h t q.buffer ∧ ¬ h.WithinLimits := by
  obtain ⟨h, hline, hbytes, hbody⟩ := exists_head_openLine kMaxRequestLineLen
  have hlong : kMaxRequestLineLen < h.line.toBytes.length := by
    rw [hline]
    simp only [openLine, List.length_append, List.length_replicate]
    exact Nat.lt_add_right _ (Nat.lt_add_of_pos_left (by decide))
  have hle : h.contentLength ≤ kMaxBodyBytes := by simp [hbody]
  have hwhole : h.toBytes = h.toBytes ++ [] ++ [] := by simp
  have hrun : ({} : HttpParser).parse {} = (.Incomplete, {}, {}) := rfl
  rw [← hbytes]
  refine ⟨_, [], h, [], .incomplete hrun (.refl _ _), ?_, ⟨hle, [], hbody.symm, hwhole⟩,
    fun hin => absurd hin.1 (not_le.mpr hlong)⟩
  rw [complete_of_accepts ⟨h, [], hle, hbody.symm, hwhole, rfl⟩]

end ApiGateway.Http
