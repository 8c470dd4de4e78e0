import ApiGateway.Common.Strings
import ApiGateway.Http.Message

/-!
# The incremental request parser

`HttpParser` as the source has it: one buffer, a phase, the progress made so far, and offsets into the
buffer. The functions pass the parser explicitly. A member function that may throw returns
`HttpParser × Except ParseError _`: what it assigned before throwing stays assigned, since `parse`
catches the exception and keeps the object.

Reference: `src/http/HttpParser.cpp`, `include/http/HttpParser.hpp`.
-/

namespace ApiGateway.Http

open Str

inductive ParseStatus where
  | Incomplete
  | Complete
  | Error
deriving DecidableEq, Repr

/-- The exceptions `parse` can run into, one for each `throw`. -/
inductive ParseError where
  | requestLineTooLong
  | malformedRequestLine
  | unsupportedHttpVersion
  | invalidHttpMethod
  | invalidRequestTarget
  | headersTooLarge
  | malformedHeader
  | invalidHeader
  | tooManyHeaders
  | duplicateFramingHeader
  | invalidContentLength
  | bodyTooLarge
  | ambiguousRequestFraming
  | chunkedUnsupported
deriving DecidableEq, Repr

namespace HttpParser

def kMaxRequestLineLen : ℕ := 8192
def kMaxHeaderBytes : ℕ := 32768
def kMaxHeaderCount : ℕ := 100
def kMaxBodyBytes : ℕ := 10 * 1024 * 1024

inductive State where
  | RequestLine
  | Headers
  | Body
  | Done
deriving DecidableEq, Repr

end HttpParser

open HttpParser

structure HttpParser where
  buffer : Bytes := []
  state : State := .RequestLine
  method : Bytes := []
  path : Bytes := []
  query : Bytes := []
  version : Bytes := []
  headers : HeaderMap := ∅
  contentLength : ℕ := 0
  chunked : Bool := false
  headerCount : ℕ := 0
  consumed : ℕ := 0
deriving DecidableEq

namespace HttpParser

/-- `HttpParser::trim`. Leading carriage returns are no white space to `find_first_not_of`, but
trailing ones are to `find_last_not_of`, so that `b` can be `npos` where `a` is not; `b - a + 1` then
wraps around. -/
def trim (s : Bytes) : Bytes :=
  match s.findIdx? (· ∉ [sp, tab]) with
  | none => []
  | some a =>
    match findLastIdx? (· ∉ [sp, tab, cr]) s with
    | some b => substr s a (sizeSub b a + 1)
    | none => substr s a ((2 ^ 64 - 1 - a + 1) % 2 ^ 64)

def append (p : HttpParser) (data : Bytes) : HttpParser :=
  { p with buffer := p.buffer ++ data }

def reset (p : HttpParser) : HttpParser :=
  { p with buffer := [], state := .RequestLine, consumed := 0, headers := ∅, headerCount := 0 }

/-! ## The request line -/

/-- `[A-Z0-9_-]`. -/
def isMethodChar (c : UInt8) : Bool := isupper c || isdigit c || c == 45 || c == 95

/-- Split the target into path and query. -/
def setTarget (p : HttpParser) (target : Bytes) : HttpParser :=
  let p :=
    match target.findIdx? (· = questionMark) with
    | none => { p with path := target, query := [] }
    | some q => { p with path := substr target 0 q, query := target.drop (q + 1) }
  if p.path = [] then { p with path := [slash] } else p

/-- The part of `parseRequestLine` that analyses a complete line. -/
def analyseRequestLine (p : HttpParser) (line : Bytes) : HttpParser × Except ParseError Unit :=
  match line.findIdx? (· = sp), findLastIdx? (· = sp) line with
  | some sp1, some sp2 =>
    if sp1 = sp2 then (p, .error .malformedRequestLine)
    else
      let target := substr line (sp1 + 1) (sizeSub sp2 sp1 - 1)
      let p := { p with method := substr line 0 sp1, version := line.drop (sp2 + 1) }
      if p.version ≠ bytes "HTTP/1.1" ∧ p.version ≠ bytes "HTTP/1.0" then
        (p, .error .unsupportedHttpVersion)
      else if p.method = [] ∨ ¬ p.method.all isMethodChar then (p, .error .invalidHttpMethod)
      else if target = [] ∨ target.head? ≠ some slash ∨ (target.findIdx? (· ∈ crlf)).isSome then
        (p, .error .invalidRequestTarget)
      else (p.setTarget target, .ok ())
  | _, _ => (p, .error .malformedRequestLine)

/-- `parseRequestLine(pos)`: `none` when more data is needed, else the offset behind the line. -/
def parseRequestLine (p : HttpParser) (pos : ℕ) : HttpParser × Except ParseError (Option ℕ) :=
  match findFrom p.buffer crlf pos with
  | none =>
    if kMaxRequestLineLen < p.buffer.length then (p, .error .requestLineTooLong) else (p, .ok none)
  | some eol =>
    match p.analyseRequestLine (substr p.buffer pos (eol - pos)) with
    | (p, .error e) => (p, .error e)
    | (p, .ok ()) => (p, .ok (some (eol + 2)))

/-! ## The header section -/

/-- The key a header line is stored under. -/
def headerKey (line : Bytes) (colon : ℕ) : Bytes := toLower (trim (substr line 0 colon))

/-- The value a header line is stored with. -/
def headerValue (line : Bytes) (colon : ℕ) : Bytes := trim (line.drop (colon + 1))

/-- Headers that must not be repeated. -/
def framingKeys : List Bytes := [bytes "content-length", bytes "transfer-encoding", bytes "host"]

/-- The part of the loop in `parseHeaders` that takes in one non-blank line. `headerCount` is
incremented before it is compared. -/
def addHeader (p : HttpParser) (line : Bytes) : HttpParser × Except ParseError Unit :=
  match line.findIdx? (· = colon) with
  | none => (p, .error .malformedHeader)
  | some c =>
    let key := headerKey line c
    let value := headerValue line c
    if key = [] ∨ (key.findIdx? (· ∈ [sp, tab, cr, lf])).isSome
        ∨ (value.findIdx? (· ∈ crlf)).isSome then (p, .error .invalidHeader)
    else
      let p := { p with headerCount := p.headerCount + 1 }
      if kMaxHeaderCount < p.headerCount then (p, .error .tooManyHeaders)
      else if key ∈ p.headers ∧ key ∈ framingKeys then (p, .error .duplicateFramingHeader)
      else ({ p with headers := p.headers.insert key value }, .ok ())

/-- The `while` loop of `parseHeaders`. Each round moves `pos` forward by at least two bytes, so that
a fuel above the buffer's size never runs out (`parseHeadersLoop_sim`). -/
def parseHeadersLoop : ℕ → HttpParser → ℕ → HttpParser × Except ParseError (Option ℕ)
  | 0, p, _ => (p, .ok none)
  | fuel + 1, p, pos =>
    match findFrom p.buffer crlf pos with
    | none =>
      if kMaxHeaderBytes < sizeSub p.buffer.length pos then (p, .error .headersTooLarge)
      else (p, .ok none)
    | some eol =>
      if eol = pos then (p, .ok (some (eol + 2)))
      else
        match p.addHeader (substr p.buffer pos (eol - pos)) with
        | (p, .error e) => (p, .error e)
        | (p, .ok ()) => parseHeadersLoop fuel { p with consumed := eol + 2 } (eol + 2)

/-- `parseHeaders(pos)`: `none` when more data is needed, else the offset behind the blank line. -/
def parseHeaders (p : HttpParser) (pos : ℕ) : HttpParser × Except ParseError (Option ℕ) :=
  parseHeadersLoop (p.buffer.length + 1) p pos

/-- `toLower(value)` contains `"chunked"`. -/
def mentionsChunked (value : Bytes) : Bool := (find (toLower value) (bytes "chunked")).isSome

/-- Read the `Content-Length` header, if there is one. An oversized length has been assigned when
`bodyTooLarge` is thrown. -/
def readContentLength (p : HttpParser) : HttpParser × Except ParseError Unit :=
  match p.headers.lookup (bytes "content-length") with
  | none => (p, .ok ())
  | some value =>
    match fromChars value with
    | none => (p, .error .invalidContentLength)
    | some (parsed, stop) =>
      if stop ≠ value.length then (p, .error .invalidContentLength)
      else if kMaxBodyBytes < parsed then ({ p with contentLength := parsed }, .error .bodyTooLarge)
      else ({ p with contentLength := parsed }, .ok ())

/-- What `parse` does with the framing headers once the header section is complete. -/
def selectFraming (p : HttpParser) : HttpParser × Except ParseError Unit :=
  match p.readContentLength with
  | (p, .error e) => (p, .error e)
  | (p, .ok ()) =>
    let te := p.headers.lookup (bytes "transfer-encoding")
    let p := { p with chunked := te.any mentionsChunked }
    if te.isSome ∧ (p.headers.lookup (bytes "content-length")).isSome then
      (p, .error .ambiguousRequestFraming)
    else if p.chunked then (p, .error .chunkedUnsupported)
    else ({ p with state := .Body }, .ok ())

/-! ## `parse` -/

/-- The `RequestLine` phase of `parse`; `false` when more data is needed. -/
def requestLinePhase (p : HttpParser) : HttpParser × Except ParseError Bool :=
  if p.state = .RequestLine then
    match p.parseRequestLine 0 with
    | (p, .error e) => (p, .error e)
    | (p, .ok none) => (p, .ok false)
    | (p, .ok (some pos)) => ({ p with state := .Headers, consumed := pos }, .ok true)
  else (p, .ok true)

/-- The `Headers` phase of `parse`; `false` when more data is needed. -/
def headersPhase (p : HttpParser) : HttpParser × Except ParseError Bool :=
  if p.state = .Headers then
    match p.parseHeaders p.consumed with
    | (p, .error e) => (p, .error e)
    | (p, .ok none) => (p, .ok false)
    | (p, .ok (some pos)) =>
      match selectFraming { p with consumed := pos } with
      | (p, .error e) => (p, .error e)
      | (p, .ok ()) => (p, .ok true)
  else (p, .ok true)

/-- The `Body` phase of `parse`; `none` when more data is needed. -/
def bodyPhase (p : HttpParser) (out : HttpRequest) : Option (HttpParser × HttpRequest) :=
  if p.state = .Body then
    if sizeSub p.buffer.length p.consumed < p.contentLength then none
    else
      some ({ p with consumed := p.consumed + p.contentLength },
        { out with body := substr p.buffer p.consumed p.contentLength })
  else some (p, out)

/-- `out.keepAlive`: the `Connection` header decides, else the version does. -/
def keepsAlive (version : Bytes) (headers : HeaderMap) : Bool :=
  match headers.lookup (bytes "connection") with
  | some value => toLower value ≠ bytes "close"
  | none => version = bytes "HTTP/1.1"

/-- Fill in the request and start over behind it. -/
def finish (p : HttpParser) (out : HttpRequest) : HttpParser × HttpRequest :=
  ({ buffer := p.buffer.drop p.consumed },
    { out with
      method := p.method, path := p.path, query := p.query, version := p.version,
      headers := p.headers, keepAlive := keepsAlive p.version p.headers })

/-- `parse(out)`: the status, the parser and the request afterwards. -/
def parse (p : HttpParser) (out : HttpRequest) : ParseStatus × HttpParser × HttpRequest :=
  match p.requestLinePhase with
  | (p, .error _) => (.Error, p, out)
  | (p, .ok false) => (.Incomplete, p, out)
  | (p, .ok true) =>
    match p.headersPhase with
    | (p, .error _) => (.Error, p, out)
    | (p, .ok false) => (.Incomplete, p, out)
    | (p, .ok true) =>
      match p.bodyPhase out with
      | none => (.Incomplete, p, out)
      | some (p, out) => (.Complete, p.finish out)

end HttpParser

end ApiGateway.Http
