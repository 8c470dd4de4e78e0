import Mathlib.Data.Finmap
import ApiGateway.Common.Bytes

/-!
# HTTP messages

`HttpRequest` and `HttpResponse`, with the response's wire format. The `unordered_map` of request
headers is a `Finmap`: it has no order of its own, so whoever iterates over it is given one.
-/

namespace ApiGateway.Http

open Str

def cr : UInt8 := 13
def lf : UInt8 := 10
def sp : UInt8 := 32
def tab : UInt8 := 9
def colon : UInt8 := 58
def slash : UInt8 := 47
def questionMark : UInt8 := 63

/-- The line terminator `"\r\n"`. -/
def crlf : Bytes := [cr, lf]

/-- `std::unordered_map<std::string, std::string>`. -/
abbrev HeaderMap := Finmap fun _ : Bytes => Bytes

structure HttpRequest where
  method : Bytes := []
  path : Bytes := []
  query : Bytes := []
  version : Bytes := []
  /-- Keyed by lower-cased names. -/
  headers : HeaderMap := ∅
  body : Bytes := []
  keepAlive : Bool := true
  /-- Assigned by the gateway, not the client. -/
  requestId : Bytes := []
deriving DecidableEq

/-- Method, path and query, as the cache keys responses. -/
def HttpRequest.cacheKey (r : HttpRequest) : Bytes :=
  r.method ++ [sp] ++ r.path ++ (if r.query = [] then [] else questionMark :: r.query)

structure HttpResponse where
  statusCode : ℤ := 200
  statusText : Bytes := bytes "OK"
  headers : List (Bytes × Bytes) := []
  body : Bytes := []
deriving DecidableEq, Repr

namespace HttpResponse

/-- Overwrite the first header of that name, or add one at the end. -/
def setHeader (r : HttpResponse) (k v : Bytes) : HttpResponse :=
  { r with headers := go r.headers }
where
  go : List (Bytes × Bytes) → List (Bytes × Bytes)
    | [] => [(k, v)]
    | h :: hs => if h.1 = k then (k, v) :: hs else h :: go hs

def make (code : ℤ) (text body : Bytes) : HttpResponse :=
  { statusCode := code, statusText := text, body }

/-- One header line on the wire. -/
def headerLine (h : Bytes × Bytes) : Bytes := h.1 ++ bytes ": " ++ h.2

/-- The status line. -/
def statusLine (r : HttpResponse) : Bytes :=
  bytes "HTTP/1.1 " ++ decimalInt r.statusCode ++ [sp] ++ r.statusText

/-- The header lines `serialize` writes: the response's own, then `Content-Length` and `Connection`
unless the response has a header spelt exactly so. -/
def headerLines (r : HttpResponse) (keepAlive : Bool) : List Bytes :=
  r.headers.map headerLine
    ++ (if r.headers.any (·.1 = bytes "Content-Length") then []
        else [headerLine (bytes "Content-Length", decimal r.body.length)])
    ++ (if r.headers.any (·.1 = bytes "Connection") then []
        else [headerLine (bytes "Connection", bytes (if keepAlive then "keep-alive" else "close"))])

/-- Everything `serialize` writes before the body. -/
def serializeHead (r : HttpResponse) (keepAlive : Bool) : Bytes :=
  r.statusLine ++ crlf ++ (r.headerLines keepAlive).flatMap (· ++ crlf) ++ crlf

/-- The wire format. -/
def serialize (r : HttpResponse) (keepAlive : Bool) : Bytes :=
  r.serializeHead keepAlive ++ r.body

end HttpResponse

end ApiGateway.Http
