import ApiGateway.Http.Simulation

/-!
# Resumable parsing

A client's bytes reach the parser in whatever pieces the socket delivers. `drain` is the loop around
`parse` in `Worker::onReadable`, `feed` runs it after every piece. The requests and the final verdict
do not depend on the pieces (`feed_agrees_with_drain`), as long as no line is so long that the parser may
give up on it before its end has arrived.
-/

namespace ApiGateway.Http

open Str HttpParser Resumable

/-! ## Draining and feeding -/

namespace HttpParser

/-- The loop: call `parse` on fresh requests until it no longer returns `Complete`. -/
def drainLoop : ℕ → HttpParser → Option (List HttpRequest × ParseStatus × HttpParser)
  | 0, _ => none
  | fuel + 1, p =>
    match p.parse {} with
    | (.Complete, q, r) => (drainLoop fuel q).map fun t => (r :: t.1, t.2)
    | (status, q, _) => some ([], status, q)

/-- Drain the buffer. `none` would mean that the loop runs on, which it never does: every completed
request takes bytes out of the buffer (`drain_sim`). -/
def drain (p : HttpParser) : Option (List HttpRequest × ParseStatus × HttpParser) :=
  drainLoop (p.buffer.length + 1) p

/-- Append each chunk and drain, up to the first error. -/
def feed : HttpParser → List Bytes → Option (List HttpRequest × ParseStatus)
  | _, [] => some ([], .Incomplete)
  | p, c :: cs =>
    match (p.append c).drain with
    | none => none
    | some (rs, .Error, _) => some (rs, .Error)
    | some (rs, _, q) => (feed q cs).map fun t => (rs ++ t.1, t.2)

end HttpParser

/-- The parsers a client connection can hold: the gateway appends and parses, also after an error, and
has no call of `reset`. -/
inductive Reached : HttpParser → Prop
  | fresh : Reached {}
  | append {p} (data : Bytes) : Reached p → Reached (p.append data)
  | parse {p} (out : HttpRequest) : Reached p → Reached (p.parse out).2.1

/-- **Invariants of a connection's parser.** A property of progress that holds at the start of a request,
that reading lines keeps and that does not depend on the count of lines holds of the progress every
reached parser stands for. -/
theorem Reached.rep_invariant {I : Progress → Prop} {p : HttpParser} (h : Reached p)
    (hstart : I .requestLine)
    (hsilent : ∀ {g g' : Progress} {u w : Bytes}, I g → scanner.Silent g u g' w → I g')
    (hrecount : ∀ {g : Progress}, I g → ∀ n, I (g.recount n)) : ∃ g u, Rep p g u ∧ I g := by
  induction h with
  | fresh => exact ⟨_, _, rep_start [], hstart⟩
  | append data _ ih =>
    obtain ⟨g, u, hrep, hg⟩ := ih
    exact ⟨g, u ++ data, hrep.append data, hg⟩
  | @parse p out _ ih =>
    obtain ⟨g, u, hrep, hg⟩ := ih
    have hsim := parse_sim hrep out
    revert hsim
    rcases p.parse out with ⟨_ | _ | _, q, out'⟩
    · exact fun ⟨_, g', w, hsil, _, hq⟩ => ⟨g', w, hq, hsilent hg hsil⟩
    · rintro ⟨g', w, r, v, -, -, rfl, -⟩
      exact ⟨_, _, rep_start v, hstart⟩
    · exact fun ⟨_, g', _, hsil, _, n, w, hq⟩ =>
        ⟨g'.recount n, w, hq, hrecount (hsilent hg hsil) n⟩

/-- Every parser that can be reached stands for some progress. -/
theorem Reached.rep {p : HttpParser} (h : Reached p) : ∃ g u, Rep p g u := by
  obtain ⟨g, u, hrep, -⟩ := h.rep_invariant (I := fun _ => True) trivial (fun _ _ => trivial)
    fun _ _ => trivial
  exact ⟨g, u, hrep⟩

/-! ## Completing a request uses up bytes -/

/-- Reading lines shortens the input. -/
theorem silent_length_le {g g' : Progress} {u w : Bytes} (h : scanner.Silent g u g' w) :
    w.length ≤ u.length := by
  induction h with
  | refl => exact le_rfl
  | step hstep _ ih =>
    obtain ⟨line, -, hcut, -⟩ := Progress.step_none hstep
    have := Progress.length_add_two_le_of_cut hcut
    omega

/-- So does every step. -/
theorem visits_length_le {g g' : Progress} {u w : Bytes} (h : scanner.Visits g u g' w) :
    w.length ≤ u.length := by
  induction h with
  | refl => exact le_rfl
  | step hstep _ ih =>
    rcases Progress.step_next hstep with ⟨line, -, hcut, -⟩ | ⟨k, n, -, -, rfl, -⟩
    · have := Progress.length_add_two_le_of_cut hcut
      omega
    · rw [List.length_drop] at ih
      omega

/-- What a completed request leaves is strictly shorter than the buffer was. -/
theorem length_lt_of_complete {p : HttpParser} {g g' : Progress} {u w v : Bytes} {r : HttpRequest}
    (hrep : Rep p g u) (hsil : scanner.Silent g u g' w)
    (hstep : g'.step w = .next .requestLine v (some r)) : v.length < p.buffer.length := by
  obtain ⟨k, n, rfl, -, rfl, -⟩ := Progress.step_some hstep
  have hw := silent_length_le hsil
  rw [List.length_drop]
  cases g with
  | requestLine =>
    obtain ⟨-, -, rfl, -⟩ := hrep
    -- the scanner has got to the body, so at least the request line has been read
    cases hsil with
    | step hfirst hrest =>
      rw [scanner_step] at hfirst
      obtain ⟨line, -, hcut, -⟩ := Progress.step_none hfirst
      have := Progress.length_add_two_le_of_cut hcut
      have := silent_length_le hrest
      omega
  | headers h =>
    obtain ⟨-, ⟨hpos, hle⟩, rfl, -⟩ := hrep
    rw [List.length_drop] at hw
    omega
  | body h n =>
    obtain ⟨-, ⟨hpos, hle⟩, rfl, -⟩ := hrep
    rw [List.length_drop] at hw
    omega

/-- Completing a request uses up bytes. -/
theorem Reached.length_lt {p q : HttpParser} (h : Reached p) {out r : HttpRequest}
    (hparse : p.parse out = (.Complete, q, r)) : q.buffer.length < p.buffer.length := by
  obtain ⟨g, u, hrep⟩ := h.rep
  have hsim := parse_sim hrep out
  rw [hparse] at hsim
  obtain ⟨g', w, r', v, hsil, hstep, rfl, -⟩ := hsim
  exact length_lt_of_complete hrep hsil hstep

/-- What is left of a drain in terms of the scanner's. -/
def DrainMatches : List HttpRequest × Halt Progress UInt8 →
    Option (List HttpRequest × ParseStatus × HttpParser) → Prop
  | (rs, .fail), res => ∃ q, res = some (rs, .Error, q)
  | (rs, .more g w), res => ∃ q, res = some (rs, .Incomplete, q) ∧ Rep q g w

/-- The loop is matched call by call: a fuel above the buffer's size is enough. -/
theorem drainLoop_sim (fuel : ℕ) {p : HttpParser} {g : Progress} {u : Bytes} (hrep : Rep p g u)
    (hfuel : p.buffer.length < fuel) : DrainMatches (scanner.drain g u) (drainLoop fuel p) := by
  induction fuel generalizing p g u with
  | zero => omega
  | succ fuel ih =>
    have hsim := parse_sim hrep {}
    rw [drainLoop]
    revert hsim
    rcases p.parse {} with ⟨_ | _ | _, q, out'⟩
    · rintro ⟨-, g', w, hsil, hmore, hq⟩
      rw [hsil.drain_eq, scanner.drain_of_more hmore]
      exact ⟨q, rfl, hq⟩
    · rintro ⟨g', w, r, v, hsil, hstep, rfl, rfl⟩
      have hlt := length_lt_of_complete hrep hsil hstep
      have hrec := ih (rep_start v) (by simpa using by omega)
      have hid : { r with requestId := ({} : HttpRequest).requestId } = r := by
        obtain ⟨k, n, -, -, -, -, rfl⟩ := Progress.step_some hstep
        rfl
      rw [hsil.drain_eq, scanner.drain_of_next hstep, hid]
      revert hrec
      rcases scanner.drain .requestLine v with ⟨rs, ⟨g', w'⟩ | _⟩
      · rintro ⟨q, hq, hrep'⟩
        exact ⟨q, by simp [hq], hrep'⟩
      · rintro ⟨q, hq⟩
        exact ⟨q, by simp [hq]⟩
    · rintro ⟨-, g', w, hsil, hfail, -⟩
      rw [hsil.drain_eq, scanner.drain_of_fail hfail]
      exact ⟨q, rfl⟩

/-- **Draining a parser is draining its scanner.** -/
theorem drain_sim {p : HttpParser} {g : Progress} {u : Bytes} (hrep : Rep p g u) :
    DrainMatches (scanner.drain g u) p.drain :=
  drainLoop_sim _ hrep (Nat.lt_succ_self _)

/-- The drain loop of a parser that can be reached terminates. -/
theorem drain_isSome {p : HttpParser} (h : Reached p) : p.drain.isSome := by
  obtain ⟨g, u, hrep⟩ := h.rep
  have hsim := drain_sim hrep
  revert hsim
  rcases scanner.drain g u with ⟨rs, ⟨g', w⟩ | _⟩
  · rintro ⟨q, hq, -⟩
    simp [hq]
  · rintro ⟨q, hq⟩
    simp [hq]

/-- What feeding a parser comes to in terms of the scanner's. -/
def verdict : Halt Progress UInt8 → ParseStatus
  | .fail => .Error
  | .more _ _ => .Incomplete

/-- **Feeding a parser is feeding its scanner**, chunk by chunk. -/
theorem feed_sim (cs : List Bytes) {p : HttpParser} {g : Progress} {u : Bytes} (hrep : Rep p g u) :
    HttpParser.feed p cs = some ((scanner.feed g u cs).1, verdict (scanner.feed g u cs).2) := by
  induction cs generalizing p g u with
  | nil => rfl
  | cons c cs ih =>
    have hsim := drain_sim (hrep.append c)
    rw [HttpParser.feed, Scanner.feed]
    revert hsim
    rcases scanner.drain g (u ++ c) with ⟨rs, ⟨g', w⟩ | _⟩
    · rintro ⟨q, hq, hrep'⟩
      simp [hq, ih hrep']
    · rintro ⟨q, hq⟩
      simp [hq, verdict]

/-! ## Streams with lines of bounded length -/

/-- The lines that draining `s` whole delimits: at each point of the drain where a line is wanted, the
bytes before the next line terminator, if there is one. -/
def delimitedLines (s : Bytes) : List Bytes :=
  (scanner.trace .requestLine s).filterMap fun (g, w) =>
    if g.InHead then (cut crlf w).map (·.1) else none

theorem mem_delimitedLines_iff (s line : Bytes) :
    line ∈ delimitedLines s ↔
      ∃ g w r, scanner.Visits .requestLine s g w ∧ g.InHead ∧ cut crlf w = some (line, r) := by
  simp only [delimitedLines, List.mem_filterMap, Prod.exists]
  constructor
  · rintro ⟨g, w, hmem, hline⟩
    split at hline
    · rename_i hg
      obtain ⟨⟨l, r⟩, hcut, rfl⟩ := Option.map_eq_some_iff.mp hline
      exact ⟨g, w, r, Scanner.visits_of_mem_trace hmem, hg, hcut⟩
    · simp at hline
  · rintro ⟨g, w, r, hvis, hg, hcut⟩
    exact ⟨g, w, hvis.mem_trace, by simp [hg, hcut]⟩

/-- Where lines are short, giving up early is giving up rightly: a limit that part of the input
exceeds is exceeded by an unfinished line of the whole input as well. -/
theorem steady_of_short {g : Progress} {w : Bytes}
    (hshort : ∀ line r, g.InHead → cut crlf w = some (line, r) →
      line.length < kMaxRequestLineLen - 1) :
    scanner.Steady g w := by
  rintro u v rfl hfail
  obtain ⟨hg, ⟨line, r, hcut, hread⟩ | ⟨hcut, hlong⟩⟩ := Progress.step_fail hfail
  · exact Progress.step_of_readLine_eq_none hg (cut_append v hcut) hread
  · have hlimit : kMaxRequestLineLen ≤ g.limit := by
      cases g with
      | requestLine => exact le_rfl
      | headers h => simp [Progress.limit, kMaxRequestLineLen, kMaxHeaderBytes]
      | body h n => exact hg.elim
    cases hw : cut crlf (u ++ v) with
    | none =>
      have hlong' : g.limit < (u ++ v).length := by
        rw [List.length_append]
        omega
      exact (Progress.step_of_cut_eq_none hg hw).trans (if_pos hlong')
    | some lr =>
      -- `u` is at most one byte longer than the line it is the beginning of
      have := hshort lr.1 lr.2 hg hw
      have := length_lt_of_cut_eq_none hcut hw
      omega

/-- A delimited line is part of the stream. -/
theorem length_le_of_mem_delimitedLines {s line : Bytes} (h : line ∈ delimitedLines s) :
    line.length ≤ s.length := by
  obtain ⟨g, w, r, hvis, -, hcut⟩ := (mem_delimitedLines_iff s line).mp h
  have hline : line.length ≤ w.length := by
    rw [append_of_cut hcut]
    simp only [List.length_append]
    omega
  exact hline.trans (visits_length_le hvis)

/-! ## Chunk invariance -/

/-- **Resumable parsing equals one-shot parsing.** Let the lines of a stream be short. However the
stream is cut into chunks, feeding them to a fresh parser gives the requests and the verdict of draining
the stream whole. The drain loop of every parser a connection can hold terminates, since a completed
request leaves a shorter buffer. -/
theorem feed_agrees_with_drain (chunks : List Bytes)
    (hshort : ∀ line ∈ delimitedLines chunks.flatten, line.length < kMaxRequestLineLen - 1) :
    (∃ rs status q, HttpParser.feed {} chunks = some (rs, status) ∧
      (HttpParser.append {} chunks.flatten).drain = some (rs, status, q) ∧ status ≠ .Complete) ∧
    ∀ p, Reached p → p.drain.isSome ∧
      ∀ out q r, p.parse out = (.Complete, q, r) → q.buffer.length < p.buffer.length := by
  refine ⟨?_, fun p hp => ⟨drain_isSome hp, fun out q r hparse => ?_⟩⟩
  · have hsteady : ∀ g w, scanner.Visits .requestLine ([] ++ chunks.flatten) g w →
        scanner.Steady g w := fun g w hvis =>
      steady_of_short fun line r hg hcut =>
        hshort line ((mem_delimitedLines_iff _ _).mpr ⟨g, w, r, hvis, hg, hcut⟩)
    have hwait : scanner.step .requestLine [] = .more := rfl
    have hfeed := feed_sim chunks (rep_start [])
    rw [scanner.feed_eq_drain chunks hwait hsteady] at hfeed
    have hdrain := drain_sim ((rep_start []).append chunks.flatten)
    revert hfeed hdrain
    rcases scanner.drain .requestLine ([] ++ chunks.flatten) with ⟨rs, ⟨g, w⟩ | _⟩
    · rintro hfeed ⟨q, hq, -⟩
      exact ⟨rs, .Incomplete, q, hfeed, hq, by decide⟩
    · rintro hfeed ⟨q, hq⟩
      exact ⟨rs, .Error, q, hfeed, hq, by decide⟩
  · exact hp.length_lt hparse

/-- Two pipelined requests, cut inside a line terminator, a header name and a body. -/
def brokenStream : List Bytes :=
  [bytes "PUT /a?b HTTP/1.1\r", bytes "\nContent-Len", bytes "gth: 3\r\n\r\nx\r",
    bytes "\nGET /c HTTP/1.0\r\n\r\nGET"]

example : (HttpParser.feed {} brokenStream).map (fun t => (t.1.map (·.body), t.2))
    = some ([bytes "x\r\n", []], .Incomplete) := by decide

theorem feed_agrees_with_drain_brokenStream :
    (∀ line ∈ delimitedLines brokenStream.flatten, line.length < kMaxRequestLineLen - 1) ∧
    ∃ rs status q, HttpParser.feed {} brokenStream = some (rs, status) ∧
      (HttpParser.append {} brokenStream.flatten).drain = some (rs, status, q) ∧
      status ≠ .Complete := by
  have hshort : ∀ line ∈ delimitedLines brokenStream.flatten,
      line.length < kMaxRequestLineLen - 1 := fun line hline =>
    (length_le_of_mem_delimitedLines hline).trans_lt (by decide)
  exact ⟨hshort, (feed_agrees_with_drain brokenStream hshort).1⟩

end ApiGateway.Http
