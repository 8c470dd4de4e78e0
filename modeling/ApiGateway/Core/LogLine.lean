import ApiGateway.Core.Framing
import ApiGateway.Http.Reset
import ApiGateway.Observability.Logger

/-!
# The log line of a request

`handleRequest` logs every request before anything else. The request's id and method and the client's
address are plain text whatever the client sends; the path may hold any byte but a question mark, a carriage
return and a line feed, and is put into the line as it is. The line is an object with this path exactly if the
path needs no escaping (`request_logged_iff`).

Reference: `src/core/Gateway.cpp`, `src/network/TcpServer.cpp`.
-/

namespace ApiGateway.Core

open Str Http HttpParser Observability Json

/-- `inet_ntop` for an IPv4 address. -/
def inetNtop (a b c d : UInt8) : Bytes :=
  decimal a.toNat ++ bytes "." ++ decimal b.toNat ++ bytes "." ++ decimal c.toNat ++ bytes "."
    ++ decimal d.toNat

/-- The fields that `handleRequest` logs. -/
def requestFields (req : HttpRequest) (clientIp : Bytes) : Bytes :=
  bytes "\"request_id\":\"" ++ req.requestId ++ bytes "\",\"method\":\"" ++ req.method
    ++ bytes "\",\"path\":\"" ++ req.path ++ bytes "\",\"client_ip\":\"" ++ clientIp ++ bytes "\""

/-- The line of a request. Nothing in the gateway changes the least level that is logged. -/
def requestRecord (tm : Tm) (ms : ℤ) (req : HttpRequest) (clientIp : Bytes) : Option Bytes :=
  Logger.log .INFO .INFO tm ms (bytes "request received") (requestFields req clientIp)

/-- The members in front of the path. -/
def membersBefore (tm : Tm) (ms : ℤ) (req : HttpRequest) : List (Bytes × Bytes) :=
  [(bytes "ts", Logger.isoTime tm ms), (bytes "level", bytes "INFO"),
    (bytes "msg", bytes "request received"), (bytes "request_id", req.requestId),
    (bytes "method", req.method)]

theorem requestRecord_eq (tm : Tm) (ms : ℤ) (req : HttpRequest) (clientIp : Bytes) :
    requestRecord tm ms req clientIp
      = some (objectText (membersBefore tm ms req) (bytes "path") req.path
          (bytes "client_ip", clientIp)) := by
  simp [requestRecord, Logger.log, Level.rank, Level.name, Logger.escape, requestFields, objectText,
    membersBefore, written, member, bytes, quote, Json.colon, comma, lbrace, rbrace, backslash]

/-! ## What is plain -/

theorem clean_nextRequestId (seq : UInt64) (random : ℕ) : Clean (nextRequestId seq random) := by
  have hhex : ∀ n, Clean (hex n) := fun n c hc => by
    have hdigits : Clean (bytes "0123456789abcdef") := by
      simp [Clean, Plain, bytes, quote, backslash]
    exact hdigits c (mem_of_mem_hex hc)
  have hreq : Clean (bytes "req-") := by simp [Clean, Plain, bytes, quote, backslash]
  have hdash : Clean (bytes "-") := by simp [Clean, Plain, bytes, quote, backslash]
  exact Logger.clean_append (Logger.clean_append (Logger.clean_append hreq (hhex _)) hdash) (hhex _)

theorem clean_inetNtop (a b c d : UInt8) : Clean (inetNtop a b c d) := by
  have hdot : Clean (bytes ".") := by simp [Clean, Plain, bytes, quote, backslash]
  have hnum := fun n : UInt8 => Logger.clean_decimal n.toNat
  exact Logger.clean_append (Logger.clean_append (Logger.clean_append (Logger.clean_append
    (Logger.clean_append (Logger.clean_append (hnum a) hdot) (hnum b)) hdot) (hnum c)) hdot) (hnum d)

theorem clean_method {s : Bytes} (h : s.all isMethodChar = true) : Clean s := by
  intro c hc
  have hchar := List.all_eq_true.mp h c hc
  simp only [isMethodChar, Bool.or_eq_true, isupper_iff, isdigit_iff, beq_iff_eq,
    ← UInt8.toNat_inj, UInt8.reduceToNat] at hchar
  have hquote : quote.toNat = 34 := rfl
  have hbackslash : backslash.toNat = 92 := rfl
  refine ⟨⟨?_, ?_, by omega⟩, by omega⟩
  · rintro rfl
    omega
  · rintro rfl
    omega

/-- The members other than the path are plain, and have other names. -/
theorem clean_membersBefore (tm : Tm) (ms : ℤ) (req : HttpRequest) (hid : Clean req.requestId)
    (hmethod : Clean req.method) :
    (∀ m ∈ membersBefore tm ms req, Clean m.1 ∧ Clean m.2) ∧
      ∀ m ∈ membersBefore tm ms req, m.1 ≠ bytes "path" := by
  have hnames : ∀ s ∈ [bytes "ts", bytes "level", bytes "msg", bytes "request_id", bytes "method",
      bytes "INFO", bytes "request received"], Clean s := by
    simp [Clean, Plain, bytes, quote, backslash]
  constructor
  · simp only [membersBefore, List.forall_mem_cons]
    refine ⟨⟨hnames _ (by simp), Logger.clean_isoTime tm ms⟩, ⟨hnames _ (by simp), hnames _ (by simp)⟩,
      ⟨hnames _ (by simp), hnames _ (by simp)⟩, ⟨hnames _ (by simp), hid⟩,
      ⟨hnames _ (by simp), hmethod⟩, by simp⟩
  · simp [membersBefore, bytes]

/-- The line of a request with a plain id and method, for a client with a plain address. -/
theorem requestRecord_iff (tm : Tm) (ms : ℤ) {r : HttpRequest} {requestId clientIp line : Bytes}
    (hid : Clean requestId) (hmethod : Clean r.method) (hip : Clean clientIp)
    (hline : requestRecord tm ms { r with requestId } clientIp = some line) :
    (∃ members, IsObject line members ∧
      members.filter (·.1 = bytes "path") = [(bytes "path", .string r.path)]) ↔
    (∀ c ∈ r.path, Plain c) ∧ Utf8 r.path := by
  have hnames : ∀ s ∈ [bytes "path", bytes "client_ip"], Clean s := by
    simp [Clean, Plain, bytes, quote, backslash]
  rw [requestRecord_eq] at hline
  obtain rfl := Option.some.inj hline
  obtain ⟨hclean, hfresh⟩ := clean_membersBefore tm ms { r with requestId } hid hmethod
  exact isObject_objectText_iff hclean (hnames _ (by simp)) ⟨hnames _ (by simp), hip⟩ hfresh
    (by simp [bytes])

/-- **When a request is logged faithfully.** For every request that a connection's parser completes, the
line of the request is a JSON object with exactly one `path`, whose value is the path of the request, if and
only if the path has no quotation mark, no backslash and no control character, and is UTF-8. -/
theorem request_logged_iff (p q : HttpParser) (out r : HttpRequest) (hp : Reached p)
    (hparse : p.parse out = (.Complete, q, r)) (seq : UInt64) (random : ℕ) (a b c d : UInt8) (tm : Tm)
    (ms : ℤ) :
    ∃ line, requestRecord tm ms { r with requestId := nextRequestId seq random } (inetNtop a b c d)
        = some line ∧
      ((∃ members, IsObject line members ∧
          members.filter (·.1 = bytes "path") = [(bytes "path", .string r.path)]) ↔
        (∀ c ∈ r.path, c ≠ quote ∧ c ≠ backslash ∧ 32 ≤ c.toNat) ∧ Utf8 r.path) := by
  obtain ⟨k, hk, -, hr⟩ := hp.emitted hparse
  have hmethod : Clean r.method := by
    rw [hr]
    exact clean_method hk.method_chars
  have hline := requestRecord_eq tm ms { r with requestId := nextRequestId seq random }
    (inetNtop a b c d)
  exact ⟨_, hline, requestRecord_iff tm ms (clean_nextRequestId seq random) hmethod
    (clean_inetNtop a b c d) hline⟩

/-- A request whose path has a quotation mark in it. -/
def quotedPath : Bytes := bytes "GET /a\"b HTTP/1.1\r\n\r\n"

/-- **A line that the client has broken.** -/
theorem quotedPath_logged :
    ∃ q r, (HttpParser.append {} quotedPath).parse {} = (.Complete, q, r) ∧
      ∀ line members, requestRecord ⟨125, 0, 1, 0, 0, 0⟩ 0
          { r with requestId := nextRequestId 0 0 } (inetNtop 127 0 0 1) = some line →
        IsObject line members →
        members.filter (·.1 = bytes "path") ≠ [(bytes "path", .string r.path)] := by
  have hstatus : ((HttpParser.append {} quotedPath).parse {}).1 = .Complete := by decide
  have hmethod : ((HttpParser.append {} quotedPath).parse {}).2.2.method = bytes "GET" := by
    decide
  have hpath : ((HttpParser.append {} quotedPath).parse {}).2.2.path = bytes "/a\"b" := by
    decide
  rcases hparse : (HttpParser.append {} quotedPath).parse {} with ⟨status, q, r⟩
  rw [hparse] at hstatus hmethod hpath
  obtain rfl : status = .Complete := hstatus
  refine ⟨q, r, rfl, fun line members hline hobject hmember => ?_⟩
  have hclean : Clean r.method := by
    rw [show r.method = bytes "GET" from hmethod]
    exact clean_method (by decide)
  have hplain := ((requestRecord_iff _ _ (clean_nextRequestId 0 0) hclean (clean_inetNtop 127 0 0 1)
    hline).mp ⟨members, hobject, hmember⟩).1
  rw [show r.path = bytes "/a\"b" from hpath] at hplain
  exact (hplain quote (by decide)).1 rfl

/-- The root path is logged as it is. -/
theorem request_logged_root :
    ∃ q r line, (HttpParser.append {} plainRequest).parse {} = (.Complete, q, r) ∧
      requestRecord ⟨125, 0, 1, 0, 0, 0⟩ 0 { r with requestId := nextRequestId 0 0 }
        (inetNtop 127 0 0 1) = some line ∧
      ∃ members, IsObject line members ∧
        members.filter (·.1 = bytes "path") = [(bytes "path", .string r.path)] := by
  have hstatus : ((HttpParser.append {} plainRequest).parse {}).1 = .Complete := by decide
  have hpath : ((HttpParser.append {} plainRequest).parse {}).2.2.path = [slash] := by decide
  rcases hparse : (HttpParser.append {} plainRequest).parse {} with ⟨status, q, r⟩
  rw [hparse] at hstatus hpath
  obtain rfl : status = .Complete := hstatus
  obtain ⟨line, hline, hiff⟩ := request_logged_iff _ q {} r (.append _ .fresh) hparse 0 0 127 0 0 1
    ⟨125, 0, 1, 0, 0, 0⟩ 0
  refine ⟨q, r, line, rfl, hline, hiff.mpr ?_⟩
  rw [show r.path = [slash] from hpath]
  exact ⟨by simp [slash, quote, backslash], by decide⟩

end ApiGateway.Core
