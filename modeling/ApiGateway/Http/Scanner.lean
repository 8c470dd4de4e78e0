import ApiGateway.Common.Resumable
import ApiGateway.Http.Grammar

/-!
# The parser as a resumable scanner

The buffer, the offsets and the half-filled fields of `HttpParser` implement a simple machine:
`Progress` is what has been read of the current request, and the input is what has not been read yet.
One step of `scanner` reads one line, or the body. `Rep p g u` says that the parser `p` stands for
progress `g` with unread input `u`, and `parse_sim` that a call of `parse` is a run of steps up to the
next result.
-/

namespace ApiGateway.Http

open Str HttpParser Resumable

/-- What has been read of a request whose header section is not complete. -/
structure Head where
  method : Bytes
  path : Bytes
  query : Bytes
  version : Bytes
  headers : HeaderMap
  headerCount : ℕ

/-- How far the current request has been read. -/
inductive Progress where
  | requestLine
  | headers (h : Head)
  | body (h : Head) (contentLength : ℕ)

/-- The part of a parser that is progress. -/
def HttpParser.head (p : HttpParser) : Head :=
  ⟨p.method, p.path, p.query, p.version, p.headers, p.headerCount⟩

namespace Head

def toParser (h : Head) : HttpParser :=
  { method := h.method, path := h.path, query := h.query, version := h.version,
    headers := h.headers, headerCount := h.headerCount }

/-- The request line opens a request without headers. -/
def ofLine (line : Bytes) : Option Head :=
  match ({} : HttpParser).analyseRequestLine line with
  | (p, .ok ()) => some p.head
  | (_, .error _) => none

/-- A header line adds a header. -/
def addLine (h : Head) (line : Bytes) : Option Head :=
  match h.toParser.addHeader line with
  | (p, .ok ()) => some p.head
  | (_, .error _) => none

/-- The request with this head and this body. -/
def request (h : Head) (body : Bytes) : HttpRequest :=
  { method := h.method, path := h.path, query := h.query, version := h.version,
    headers := h.headers, body, keepAlive := keepsAlive h.version h.headers }

end Head

namespace Progress

/-- The head of the request is being read, line by line. -/
def InHead : Progress → Prop
  | .requestLine => True
  | .headers _ => True
  | .body _ _ => False

instance : DecidablePred InHead
  | .requestLine => isTrue trivial
  | .headers _ => isTrue trivial
  | .body _ _ => isFalse id

/-- How much unread input without a line terminator is put up with. -/
def limit : Progress → ℕ
  | .requestLine => kMaxRequestLineLen
  | .headers _ => kMaxHeaderBytes
  | .body _ _ => 0

/-- Take in one line of the head. The blank line ends the header section. -/
def readLine : Progress → Bytes → Option Progress
  | .requestLine, line => (Head.ofLine line).map .headers
  | .headers h, line =>
    if line = [] then (bodyLength h.headers).map (.body h) else (h.addLine line).map .headers
  | .body _ _, _ => none

/-- Read one line of the head, or wait for it. -/
def headStep (g : Progress) (u : Bytes) : Step Progress UInt8 HttpRequest :=
  match cut crlf u with
  | none => if g.limit < u.length then .fail else .more
  | some (line, rest) =>
    match g.readLine line with
    | none => .fail
    | some g' => .next g' rest none

/-- Read one line of the head, or the body. -/
def step : Progress → Bytes → Step Progress UInt8 HttpRequest
  | .requestLine, u => headStep .requestLine u
  | .headers h, u => headStep (.headers h) u
  | .body h n, u =>
    if u.length < n then .more else .next .requestLine (u.drop n) (some (h.request (u.take n)))

/-- Reading a line shortens the input; reading an empty body does not, but ends the request. -/
def size : Progress → Bytes → ℕ
  | .requestLine, u => 2 * u.length
  | .headers _, u => 2 * u.length
  | .body _ _, u => 2 * u.length + 1

theorem inHead_requestLine : InHead .requestLine := trivial

theorem inHead_headers (h : Head) : InHead (.headers h) := trivial

theorem step_of_inHead {g : Progress} (hg : g.InHead) (u : Bytes) : g.step u = g.headStep u := by
  cases g with
  | requestLine => rfl
  | headers h => rfl
  | body h n => exact hg.elim

/-- No line yet: wait, up to the limit. -/
theorem step_of_cut_eq_none {g : Progress} (hg : g.InHead) {u : Bytes} (h : cut crlf u = none) :
    g.step u = if g.limit < u.length then .fail else .more := by
  rw [step_of_inHead hg, headStep, h]

/-- A line that is taken in. -/
theorem step_of_readLine {g g' : Progress} (hg : g.InHead) {u line rest : Bytes}
    (h : cut crlf u = some (line, rest)) (hread : g.readLine line = some g') :
    g.step u = .next g' rest none := by
  simp only [step_of_inHead hg, headStep, h, hread]

/-- A line that is refused. -/
theorem step_of_readLine_eq_none {g : Progress} (hg : g.InHead) {u line rest : Bytes}
    (h : cut crlf u = some (line, rest)) (hread : g.readLine line = none) : g.step u = .fail := by
  simp only [step_of_inHead hg, headStep, h, hread]

/-- What a step can do: take in a line, or complete the body. -/
theorem step_next {g g' : Progress} {u r : Bytes} {o : Option HttpRequest}
    (h : g.step u = .next g' r o) :
    (∃ line, g.InHead ∧ cut crlf u = some (line, r) ∧ g.readLine line = some g' ∧ o = none) ∨
    (∃ k n, g = .body k n ∧ n ≤ u.length ∧ r = u.drop n ∧ g' = .requestLine ∧
      o = some (k.request (u.take n))) := by
  by_cases hg : g.InHead
  · rw [step_of_inHead hg, headStep] at h
    split at h
    · split at h <;> simp at h
    · rename_i line rest hcut
      split at h
      · simp at h
      · rename_i g'' hread
        obtain ⟨rfl, rfl, rfl⟩ := Step.next.inj h
        exact .inl ⟨line, hg, hcut, hread, rfl⟩
  · cases g with
    | requestLine => exact absurd trivial hg
    | headers k => exact absurd trivial hg
    | body k n =>
      rw [step] at h
      split at h
      · simp at h
      · rename_i hn
        obtain ⟨rfl, rfl, rfl⟩ := Step.next.inj h
        exact .inr ⟨k, n, rfl, by omega, rfl, rfl, rfl⟩

/-- Why a step can fail: a line that is refused, or too much input without a line. -/
theorem step_fail {g : Progress} {u : Bytes} (h : g.step u = .fail) :
    g.InHead ∧ ((∃ line r, cut crlf u = some (line, r) ∧ g.readLine line = none) ∨
      (cut crlf u = none ∧ g.limit < u.length)) := by
  by_cases hg : g.InHead
  · refine ⟨hg, ?_⟩
    rw [step_of_inHead hg, headStep] at h
    split at h
    · rename_i hcut
      split at h
      · rename_i hlong
        exact .inr ⟨hcut, hlong⟩
      · simp at h
    · rename_i line rest hcut
      split at h
      · rename_i hread
        exact .inl ⟨line, rest, hcut, hread⟩
      · simp at h
  · cases g with
    | requestLine => exact absurd trivial hg
    | headers k => exact absurd trivial hg
    | body k n =>
      rw [step] at h
      split at h <;> simp at h

/-- A result comes from a complete body. -/
theorem step_some {g g' : Progress} {u r : Bytes} {req : HttpRequest}
    (h : g.step u = .next g' r (some req)) :
    ∃ k n, g = .body k n ∧ n ≤ u.length ∧ r = u.drop n ∧ g' = .requestLine ∧
      req = k.request (u.take n) := by
  rcases step_next h with ⟨line, -, -, -, ho⟩ | ⟨k, n, hg, hn, hr, hg', ho⟩
  · simp at ho
  · exact ⟨k, n, hg, hn, hr, hg', Option.some.inj ho⟩

/-- A step without a result takes in a line. -/
theorem step_none {g g' : Progress} {u r : Bytes} (h : g.step u = .next g' r none) :
    ∃ line, g.InHead ∧ cut crlf u = some (line, r) ∧ g.readLine line = some g' := by
  rcases step_next h with ⟨line, hg, hcut, hread, -⟩ | ⟨k, n, -, -, -, -, ho⟩
  · exact ⟨line, hg, hcut, hread⟩
  · simp at ho

/-- Cutting off a line takes at least its terminator. -/
theorem length_add_two_le_of_cut {u line r : Bytes} (h : cut crlf u = some (line, r)) :
    r.length + 2 ≤ u.length := by
  rw [append_of_cut h]
  simp only [List.length_append, crlf, List.length_cons, List.length_nil]
  omega

theorem size_lt_of_step {g g' : Progress} {u r : Bytes} {o : Option HttpRequest}
    (h : g.step u = .next g' r o) : g'.size r < g.size u := by
  rcases step_next h with ⟨line, hg, hcut, -⟩ | ⟨k, n, rfl, hn, rfl, rfl, -⟩
  · have hlen := length_add_two_le_of_cut hcut
    have hg' : g'.size r ≤ 2 * r.length + 1 := by cases g' <;> simp [size]
    have hgu : 2 * u.length ≤ g.size u := by cases g <;> simp [size]
    omega
  · simp only [size, List.length_drop]
    omega

theorem step_append {g g' : Progress} {u r : Bytes} {o : Option HttpRequest}
    (h : g.step u = .next g' r o) (v : Bytes) : g.step (u ++ v) = .next g' (r ++ v) o := by
  rcases step_next h with ⟨line, hg, hcut, hread, rfl⟩ | ⟨k, n, rfl, hn, rfl, rfl, rfl⟩
  · exact step_of_readLine hg (cut_append v hcut) hread
  · have hlen : ¬ (u ++ v).length < n := by
      rw [List.length_append]
      omega
    simp only [step, hlen, if_false, List.drop_append_of_le_length hn,
      List.take_append_of_le_length hn]

end Progress

/-- The request parser as a resumable scanner of bytes. -/
def scanner : Scanner Progress UInt8 HttpRequest where
  step := Progress.step
  size := Progress.size
  size_lt := Progress.size_lt_of_step
  next_append := Progress.step_append

theorem scanner_step (g : Progress) (u : Bytes) : scanner.step g u = g.step u := rfl

end ApiGateway.Http
