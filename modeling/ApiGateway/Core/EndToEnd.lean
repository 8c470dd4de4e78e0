import ApiGateway.Core.Exhausted
import ApiGateway.Core.Framing
import ApiGateway.Core.Replay

/-!
# From the client to the backend and back

Calls of `handleRequest` in any interleaving, with backends that may send anything: the parts of the gateway that
read and write messages, put together.

* The backend reads the client's request, with the gateway's changes to its headers (`accepts_buildBackendRequest`).
* What the gateway reads from a backend it writes in such a way that it is read as the same response
  (`Accepted.writable`, `WritableResponse.read`), whatever else is in it. Only a status text of several lines is not
  read as it was written.
* The attempts of a call of `forwardWithResilience` find balancer, breakers and pool as other calls have left them. Its
  answer is the response of one of them, unless there is a reason for one of the gateway's own (`forwardAmong_answer`).
* So every call is answered by the gateway itself where it has to, or with the response that it has read from one of the
  backends, or with one that an earlier call for the same target has got in this way (`Answer`), and this is what the
  client reads.

The client reads as the gateway itself does, so that the client may also be another gateway.

Reference: `Worker::handleRequest`, `buildBackendRequest`, `sendAndReceive` and `Gateway::forwardWithResilience` in
`src/core/Gateway.cpp`.
-/

namespace ApiGateway.Core

open Str Http HttpParser HttpResponse Routing Interleaving

/-! ## Messages in lines -/

section Lines

variable {version code text body : Bytes} {ls : List Bytes} {maxBodyBytes : ℕ} {head : ResponseHead}
  {reads : List Bytes}

/-- A response with its parts. -/
def message (version code text : Bytes) (ls : List Bytes) (body : Bytes) : Bytes :=
  version ++ sp :: (code ++ sp :: text) ++ crlf ++ lineBytes ls ++ crlf ++ body

/-- The header section ends behind its lines, which may have anything but a line terminator in them. -/
theorem find_blankLine_unbroken {s : Bytes} (hs : ¬ crlf <:+: s) (hls : ∀ l ∈ ls, l ≠ [] ∧ ¬ crlf <:+: l)
    (rest : Bytes) :
    find (s ++ crlf ++ lineBytes ls ++ crlf ++ rest) blankLine = some (s.length + (lineBytes ls).length) := by
  have hfirst : firstLine (s ++ crlf ++ lineBytes ls ++ crlf ++ rest) = s := by
    have hlines := lines_append (a := cr) (b := lf) (by decide) s (lineBytes ls ++ crlf ++ rest)
    rw [lines_unbroken hs] at hlines
    have hassoc : s ++ crlf ++ lineBytes ls ++ crlf ++ rest
        = s ++ cr :: lf :: (lineBytes ls ++ crlf ++ rest) := by simp [crlf]
    rw [firstLine, hassoc, hlines]
    rfl
  have hsection : headerSection (s ++ crlf ++ lineBytes ls ++ crlf ++ rest) = ls := by
    rw [headerSection, sectionLines_message hls, lines_unbroken hs]
    simp
  cases hfind : find (s ++ crlf ++ lineBytes ls ++ crlf ++ rest) blankLine with
  | none =>
    -- the last line, or the first one, is followed by two terminators
    refine absurd ?_ ((find_eq_none_iff _ _).mp hfind)
    rcases List.eq_nil_or_concat ls with rfl | ⟨before, l, rfl⟩
    · exact ⟨s, rest, by simp [blankLine]⟩
    · refine ⟨s ++ crlf ++ lineBytes before ++ l, rest, ?_⟩
      simp [lineBytes, blankLine]
  | some headerEnd =>
    obtain ⟨-, -, hend, -⟩ := exists_lines_of_find hfind
    rw [hend, hfirst, hsection]

/-- **A message is read to its end**, whatever the reads, and taken apart. -/
theorem sendAndReceive_message (hversion : sp ∉ version) (hcode : sp ∉ code)
    (hfirst : ¬ crlf <:+: version ++ sp :: (code ++ sp :: text)) (hls : ∀ l ∈ ls, l ≠ [] ∧ ¬ crlf <:+: l)
    (hread : ls.foldlM (ResponseHead.readLine maxBodyBytes) {} = some head) (hgot : head.gotContentLength = true)
    (hlength : head.contentLength = body.length)
    (hshort : (version ++ sp :: (code ++ sp :: text)).length + (lineBytes ls).length + 4 ≤ 24576)
    (hreads : ∀ chunk ∈ reads, 1 ≤ chunk.length ∧ chunk.length ≤ 8192)
    (hflat : reads.flatten = message version code text ls body)
    {request : Bytes} {sends : List SendResult} (hsends : sendAll sends request.length = true) :
    sendAndReceive request maxBodyBytes sends reads
      = some ({ statusCode := atoi code, statusText := text, headers := head.headers, body }, head.reusable) := by
  have hfind := find_blankLine_unbroken hfirst hls body
  have hhead := readHead_lines maxBodyBytes hfirst hls body
  rw [hread, Option.filter_some, if_pos hgot] at hhead
  rw [← message] at hfind hhead
  have hlen : (message version code text ls body).length
      = (version ++ sp :: (code ++ sp :: text)).length + (lineBytes ls).length + 4 + body.length := by
    simp only [message, List.length_append, crlf, List.length_cons, List.length_nil]
    omega
  have hreceive := receive_message hfind hhead (by omega) (by omega) reads hreads (faithful_new maxBodyBytes)
    (by simp [hflat]) (by simp only [List.length_nil]; omega)
  have hassoc : message version code text ls body
      = version ++ sp :: (code ++ sp :: text) ++ crlf ++ (lineBytes ls ++ crlf ++ body) := by
    simp only [message, List.append_assoc]
  have hdrop : substr (message version code text ls body)
      ((version ++ sp :: (code ++ sp :: text)).length + (lineBytes ls).length + 4) head.contentLength = body := by
    have hpre : (version ++ sp :: (code ++ sp :: text) ++ crlf ++ lineBytes ls ++ crlf).length
        = (version ++ sp :: (code ++ sp :: text)).length + (lineBytes ls).length + 4 := by
      simp only [List.length_append, crlf, List.length_cons, List.length_nil]
      omega
    rw [substr, message, ← hpre, List.drop_left, hlength, List.take_length]
  unfold sendAndReceive
  rw [if_pos hsends, hreceive]
  simp only [hassoc, response_of_statusLine hversion hcode hfirst, Option.map_some]
  rw [← hassoc, hdrop]

end Lines

/-! ## Writing and reading responses -/

/-- A header that makes a line which is read as that header; its name may be in any case. -/
structure WritableHeader (h : Bytes × Bytes) : Prop where
  colon_not_mem : colon ∉ h.1
  unbroken : ¬ crlf <:+: headerLine h
  key_plain : toLower h.1 ∉ reservedKeys
  value_start : ∀ c ∈ h.2.head?, isspace c = false

structure WritableResponse (r : HttpResponse) : Prop where
  status : InInt r.statusCode
  text : ¬ crlf <:+: r.statusText
  headers_writable : ∀ h ∈ r.headers, WritableHeader h

/-- A header as the reader stores it. -/
def loweredHeader (h : Bytes × Bytes) : Bytes × Bytes := (toLower h.1, h.2)

/-- A response as the reader returns it. -/
def lowered (r : HttpResponse) : HttpResponse := { r with headers := r.headers.map loweredHeader }

theorem readLine_writable (maxBodyBytes : ℕ) (head : ResponseHead) {h : Bytes × Bytes} (hh : WritableHeader h) :
    head.readLine maxBodyBytes (headerLine h) = some { head with headers := head.headers ++ [loweredHeader h] } := by
  obtain ⟨key, value⟩ := h
  obtain ⟨hidx, hkey, hvalue⟩ := headerLine_split hh.colon_not_mem hh.value_start
  have hother := hh.key_plain
  simp only [reservedKeys, List.mem_cons, List.not_mem_nil, or_false, not_or] at hother
  unfold ResponseHead.readLine
  simp only [hidx, hkey, hvalue]
  simp [hother, loweredHeader]

theorem foldlM_writable (maxBodyBytes : ℕ) (head : ResponseHead) {hs : List (Bytes × Bytes)}
    (hhs : ∀ h ∈ hs, WritableHeader h) :
    (hs.map headerLine).foldlM (ResponseHead.readLine maxBodyBytes) head
      = some { head with headers := head.headers ++ hs.map loweredHeader } := by
  induction hs generalizing head with
  | nil => simp
  | cons h hs ih =>
    obtain ⟨hh, hhs⟩ := List.forall_mem_cons.mp hhs
    rw [List.map_cons, List.foldlM_cons, readLine_writable maxBodyBytes head hh, Option.bind_eq_bind,
      Option.bind_some, ih _ hhs]
    simp only [List.append_assoc, List.singleton_append, List.map_cons]

theorem headerLine_ne_nil (h : Bytes × Bytes) : headerLine h ≠ [] := by
  simp [headerLine, bytes]

/-- A header without a carriage return. -/
theorem writableHeader_of_clean {name value : Bytes} (hcolon : colon ∉ name) (hname : cr ∉ name) (hvalue : cr ∉ value)
    (hplain : toLower name ∉ reservedKeys) (hstart : value.head?.all (!isspace ·) = true) :
    WritableHeader (name, value) :=
  ⟨hcolon, unbroken_of_not_mem (isLine_headerLine hname hvalue).2, hplain,
    fun c hc => by simpa using (Option.all_eq_true _ _).mp hstart c hc⟩

namespace WritableResponse

variable {resp : HttpResponse} {maxBodyBytes : ℕ} {reads : List Bytes}

/-- The lines that `serialize` adds. -/
theorem headerLines_eq (hresp : WritableResponse resp) (keepAlive : Bool) :
    resp.headerLines keepAlive = resp.headers.map headerLine ++
      [headerLine (bytes "Content-Length", decimal resp.body.length),
       headerLine (bytes "Connection", bytes (if keepAlive then "keep-alive" else "close"))] := by
  have hnone : ∀ name : Bytes, toLower name ∈ reservedKeys → resp.headers.any (·.1 = name) = false := by
    intro name hname
    rw [List.any_eq_false]
    intro h hh heq
    simp only [decide_eq_true_eq] at heq
    exact (hresp.headers_writable h hh).key_plain (heq ▸ hname)
  unfold headerLines
  rw [hnone _ (by decide), hnone _ (by decide)]
  simp

theorem foldlM_headerLines (hresp : WritableResponse resp) (keepAlive : Bool)
    (hbody : resp.body.length ≤ maxBodyBytes) (hmax : maxBodyBytes < 2 ^ 64) :
    (resp.headerLines keepAlive).foldlM (ResponseHead.readLine maxBodyBytes) {}
      = some ⟨resp.body.length, true, keepAlive, resp.headers.map loweredHeader⟩ := by
  rw [hresp.headerLines_eq, List.foldlM_append, foldlM_writable maxBodyBytes _ hresp.headers_writable]
  simp only [Option.bind_eq_bind, Option.bind_some, List.nil_append, List.foldlM_cons,
    readLine_contentLength hbody hmax, readLine_connection, List.foldlM_nil]
  rfl

theorem headerLines_unbroken (hresp : WritableResponse resp) (keepAlive : Bool) :
    ∀ l ∈ resp.headerLines keepAlive, l ≠ [] ∧ ¬ crlf <:+: l := by
  have hclean : ∀ {name value : Bytes}, cr ∉ name → cr ∉ value →
      headerLine (name, value) ≠ [] ∧ ¬ crlf <:+: headerLine (name, value) := fun hname hvalue =>
    ⟨headerLine_ne_nil _, unbroken_of_not_mem (isLine_headerLine hname hvalue).2⟩
  intro l hl
  rw [hresp.headerLines_eq, List.mem_append] at hl
  rcases hl with hl | hl
  · obtain ⟨h, hh, rfl⟩ := List.mem_map.mp hl
    exact ⟨headerLine_ne_nil h, (hresp.headers_writable h hh).unbroken⟩
  · simp only [List.mem_cons, List.not_mem_nil, or_false] at hl
    rcases hl with rfl | rfl
    · exact hclean (by decide) fun h => absurd (isdigit_of_mem_decimal h) (by decide)
    · cases keepAlive <;> exact hclean (by decide) (by decide)

theorem serialize_eq (resp : HttpResponse) (keepAlive : Bool) :
    resp.serialize keepAlive = message (bytes "HTTP/1.1") (decimalInt resp.statusCode) resp.statusText
      (resp.headerLines keepAlive) resp.body := by
  have hline : resp.statusLine
      = bytes "HTTP/1.1" ++ sp :: (decimalInt resp.statusCode ++ sp :: resp.statusText) := by
    simp only [statusLine, List.append_assoc]
    rfl
  rw [serialize, serializeHead, hline, message, lineBytes]

/-- **What is written is read**, with the names of the headers in lower case. -/
theorem read (hresp : WritableResponse resp) (keepAlive : Bool) (hmax : maxBodyBytes < 2 ^ 64)
    (hbody : resp.body.length ≤ maxBodyBytes) (hhead : (resp.serializeHead keepAlive).length ≤ 24576)
    (hreads : ∀ chunk ∈ reads, 1 ≤ chunk.length ∧ chunk.length ≤ 8192)
    (hflat : reads.flatten = resp.serialize keepAlive) {request : Bytes} {sends : List SendResult}
    (hsends : sendAll sends request.length = true) :
    sendAndReceive request maxBodyBytes sends reads = some (lowered resp, keepAlive) := by
  have hdigits : ∀ c, c ≠ 45 → isdigit c = false → c ∉ decimalInt resp.statusCode := fun c hne hc hmem => by
    rcases eq_or_isdigit_of_mem_decimalInt hmem with heq | hdigit
    · exact hne heq
    · simp [hdigit] at hc
  have hfirst : ¬ crlf <:+: bytes "HTTP/1.1" ++ sp :: (decimalInt resp.statusCode ++ sp :: resp.statusText) := by
    have hcode : ¬ crlf <:+: decimalInt resp.statusCode :=
      unbroken_of_not_mem (hdigits cr (by decide) (by decide))
    exact not_infix_append_cons (by decide) (by decide) (by decide)
      (not_infix_append_cons (by decide) (by decide) hcode hresp.text)
  have hlength : (resp.serializeHead keepAlive).length + resp.body.length
      = (message (bytes "HTTP/1.1") (decimalInt resp.statusCode) resp.statusText
          (resp.headerLines keepAlive) resp.body).length := by
    rw [← serialize_eq, serialize, List.length_append]
  rw [serialize_eq] at hflat
  rw [sendAndReceive_message (by decide) (hdigits sp (by decide) (by decide)) hfirst
    (hresp.headerLines_unbroken keepAlive) (hresp.foldlM_headerLines keepAlive hbody hmax) rfl rfl ?_ hreads hflat
    hsends, atoi_decimalInt hresp.status]
  · rfl
  · simp only [message, List.length_append, crlf, List.length_cons, List.length_nil] at hlength ⊢
    omega

end WritableResponse

/-! ## Responses that have been read -/

section Accepted

variable {maxBodyBytes : ℕ} {reads : List Bytes} {out : HttpResponse} {reusable : Bool} {r : Reader}
  {headerEnd : ℕ}

theorem Accepted.inInt_statusCode (hacc : Accepted maxBodyBytes reads out reusable r headerEnd) :
    InInt out.statusCode := by
  have hresponse := hacc.response
  unfold Reader.response at hresponse
  split at hresponse
  · split at hresponse
    · cases hresponse
    · rw [← Option.some.inj hresponse]
      exact inInt_atoi _
  · cases hresponse

/-- **What has been read can be written**, whatever the backend has sent, unless its status text is broken. -/
theorem Accepted.writable (hacc : Accepted maxBodyBytes reads out reusable r headerEnd)
    (htext : ¬ crlf <:+: out.statusText) : WritableResponse out := by
  refine ⟨hacc.inInt_statusCode, htext, ?_⟩
  obtain ⟨rest, -, -, -, hsection⟩ := exists_lines_of_find hacc.found
  rw [hacc.headers_eq]
  simp only [List.forall_mem_map, List.mem_filter, and_imp]
  intro l hl hkept
  refine ⟨colon_not_mem_lineName l, (kept_line (foldlM_lines hacc.head_eq l hl).1 (hsection l hl).2).2, ?_, ?_⟩
  · rw [lineName, toLower_toLower, ← lineName]
    simpa [isKept] using hkept
  · intro c hc
    have hstart := List.head?_dropWhile_not isspace ((l.dropWhile (· ≠ colon)).drop 1)
    rwa [← lineValue, show (lineValue l).head? = some c from hc] at hstart

/-- The names of the headers are in lower case. -/
theorem Accepted.headers_lower (hacc : Accepted maxBodyBytes reads out reusable r headerEnd) :
    ∀ h ∈ out.headers, toLower h.1 = h.1 := by
  rw [hacc.headers_eq]
  simp only [List.forall_mem_map]
  intro l _
  rw [lineName, toLower_toLower]

end Accepted

/-! ## The request at the backend -/

/-- The request as the backend reads it. -/
def arriving (req : HttpRequest) (host : Bytes) : HttpRequest where
  method := req.method
  path := req.path
  query := req.query
  version := bytes "HTTP/1.1"
  headers := forwardedHeaders req host
  body := req.body

theorem keepsAlive_forwardedHeaders (req : HttpRequest) (host version : Bytes) :
    keepsAlive version (forwardedHeaders req host) = true := by
  have hlookup : (forwardedHeaders req host).lookup (bytes "connection") = some (bytes "keep-alive") := by
    unfold forwardedHeaders
    dsimp only
    split
    · rw [Finmap.lookup_insert]
    · rw [Finmap.lookup_insert_of_ne _ (by decide), Finmap.lookup_insert]
  rw [keepsAlive, hlookup]
  show decide (toLower (bytes "keep-alive") ≠ bytes "close") = true
  decide

/-- **The backend gets the client's request**, to its last byte. -/
theorem accepts_buildBackendRequest {p q : HttpParser} (hp : Reached p) {out r : HttpRequest}
    (hparse : p.parse out = (.Complete, q, r)) {id : Bytes} (hid : IsRequestId id) {host : Bytes}
    (hhost : trim host = host) (hclean : ∀ c ∈ host, c ∉ crlf) {order : List (Σ _ : Bytes, Bytes)}
    (horder : (order : Multiset (Σ _ : Bytes, Bytes)) = r.headers.entries)
    (hcount : (backendHeaders { r with requestId := id } order host).length ≤ kMaxHeaderCount) :
    Accepts (buildBackendRequest { r with requestId := id } order host) (arriving { r with requestId := id } host)
      [] := by
  obtain ⟨k, hk, hlen, hr⟩ := hp.emitted hparse
  have hmethod : r.method = k.method := by rw [hr]; rfl
  have hpath : r.path = k.path := by rw [hr]; rfl
  have hquery : r.query = k.query := by rw [hr]; rfl
  have hheaders : r.headers = k.headers := by rw [hr]; rfl
  obtain ⟨hlinePath, hlineQuery⟩ := backendLine_target hk { r with requestId := id } hmethod hpath hquery
  obtain ⟨head, hline, hbytes, hann, hforwarded⟩ :=
    @exists_backendHead { r with requestId := id } order host k hk hmethod hpath hquery hheaders hid
      hhost hclean horder hcount
  refine ⟨head, r.body, hann.trans_le hlen, hann.symm, by rw [List.append_nil]; exact hbytes.symm, ?_⟩
  rw [RequestHead.request, hforwarded, keepsAlive_forwardedHeaders, hline, hlinePath, hlineQuery]
  rfl

/-! ## The gateway's headers -/

theorem isRequestId_nextRequestId (seq : UInt64) (random : ℕ) : IsRequestId (nextRequestId seq random) := by
  have hdigit : ∀ c ∈ bytes "0123456789abcdef", isHexDigit c = true := List.all_eq_true.mp (by decide)
  have hne : ∀ n, hex n ≠ [] := fun n => by
    rw [hex, ne_eq, List.map_eq_nil_iff]
    exact Nat.toDigits_ne_nil
  refine ⟨hex seq.toNat, hex random, hne _, hne _, fun c hc => ?_, ?_⟩
  · rcases List.mem_append.mp hc with hc | hc
    · exact hdigit c (mem_of_mem_hex hc)
    · exact hdigit c (mem_of_mem_hex hc)
  · rw [nextRequestId, List.append_assoc _ (bytes "-")]
    rfl

/-- The headers that the gateway sets: its id for the request, and what the cache has had to do with the answer. -/
def ownHeaders (requestId : Bytes) (mark : Option Bytes) : List (Bytes × Bytes) :=
  (bytes "X-Request-Id", requestId) :: (mark.map (bytes "X-Cache", ·)).toList

/-- A response with the gateway's headers. -/
def marked (inner : HttpResponse) (requestId : Bytes) (mark : Option Bytes) : HttpResponse :=
  { inner with headers := inner.headers ++ ownHeaders requestId mark }

section Marked

variable {inner : HttpResponse} {requestId : Bytes}

/-- The gateway's headers come after those of the backend, whose names are in lower case. -/
theorem forClient_eq (hlower : ∀ h ∈ inner.headers, toLower h.1 = h.1) (requestId : Bytes) (stored : Bool) :
    forClient inner requestId stored = marked inner requestId (if stored then some (bytes "MISS") else none) := by
  have hne : ∀ k : Bytes, toLower k ≠ k → ∀ h ∈ inner.headers, h.1 ≠ k := by
    rintro k hk h hh rfl
    exact hk (hlower h hh)
  have hcache : ∀ h ∈ inner.headers ++ [(bytes "X-Request-Id", requestId)], h.1 ≠ bytes "X-Cache" := by
    intro h hh
    rcases List.mem_append.mp hh with hh | hh
    · exact hne (bytes "X-Cache") (by decide) h hh
    · rw [List.mem_singleton.mp hh]
      show bytes "X-Request-Id" ≠ bytes "X-Cache"
      decide
  unfold forClient marked ownHeaders
  rw [setHeader_of_ne requestId (hne (bytes "X-Request-Id") (by decide))]
  cases stored with
  | false => rfl
  | true =>
    dsimp only
    rw [if_pos rfl, setHeader_of_ne _ hcache, List.append_assoc]
    rfl

/-- A header that is there gets the new value. -/
theorem setHeader_go_replace {k : Bytes} {hs : List (Bytes × Bytes)} (h : ∀ header ∈ hs, header.1 ≠ k) (v v' : Bytes)
    (rest : List (Bytes × Bytes)) : setHeader.go k v (hs ++ (k, v') :: rest) = hs ++ (k, v) :: rest := by
  induction hs with
  | nil => simp [setHeader.go]
  | cons header hs ih =>
    obtain ⟨hne, hhs⟩ := List.forall_mem_cons.mp h
    rw [List.cons_append, setHeader.go, if_neg hne, ih hhs, List.cons_append]

/-- **A hit is the stored response with the headers of the new request.** -/
theorem replay_eq {call : HandlerCall} (hlower : ∀ h ∈ call.answer.headers, toLower h.1 = h.1) (requestId : Bytes) :
    replay call.entry.value requestId = marked call.answer requestId (some (bytes "HIT")) := by
  have hne : ∀ k : Bytes, toLower k ≠ k → ∀ h ∈ call.answer.headers, h.1 ≠ k := by
    rintro k hk h hh rfl
    exact hk (hlower h hh)
  have hstored : call.storedResponse = marked call.answer call.req.requestId (some (bytes "MISS")) :=
    forClient_eq hlower call.req.requestId true
  have hcache : ∀ h ∈ call.answer.headers ++ [(bytes "X-Request-Id", call.req.requestId)],
      h.1 ≠ bytes "X-Cache" := by
    intro h hh
    rcases List.mem_append.mp hh with hh | hh
    · exact hne (bytes "X-Cache") (by decide) h hh
    · rw [List.mem_singleton.mp hh]
      show bytes "X-Request-Id" ≠ bytes "X-Cache"
      decide
  have hheaders : call.storedResponse.headers
      = call.answer.headers ++ [(bytes "X-Request-Id", call.req.requestId)] ++ [(bytes "X-Cache", bytes "MISS")] := by
    rw [hstored, List.append_assoc]
    rfl
  simp only [replay, HandlerCall.entry, setHeader, HttpResponse.make]
  rw [hheaders, setHeader_go_replace hcache, List.append_assoc, List.singleton_append,
    setHeader_go_replace (hne (bytes "X-Request-Id") (by decide)), hstored]
  rfl

theorem writable_ownHeaders (hid : IsRequestId requestId) {mark : Option Bytes}
    (hmark : ∀ m ∈ mark, m = bytes "MISS" ∨ m = bytes "HIT") :
    ∀ h ∈ ownHeaders requestId mark, WritableHeader h := by
  have hstart : requestId.head?.all (!isspace ·) = true := by
    obtain ⟨seq, suffix, -, -, -, rfl⟩ := hid
    rfl
  intro h hh
  rcases List.mem_cons.mp hh with rfl | hh
  · exact writableHeader_of_clean (by decide) (by decide)
      (fun hmem => hid.wire.1 cr hmem (by decide)) (by decide) hstart
  · obtain ⟨m, hm, rfl⟩ := Option.map_eq_some_iff.mp (Option.mem_toList.mp hh)
    rcases hmark m hm with rfl | rfl
    · exact writableHeader_of_clean (by decide) (by decide) (by decide) (by decide) (by decide)
    · exact writableHeader_of_clean (by decide) (by decide) (by decide) (by decide) (by decide)

theorem WritableResponse.marked (h : WritableResponse inner) (hid : IsRequestId requestId) {mark : Option Bytes}
    (hmark : ∀ m ∈ mark, m = bytes "MISS" ∨ m = bytes "HIT") : WritableResponse (marked inner requestId mark) := by
  refine ⟨h.status, h.text, fun header hh => ?_⟩
  rcases List.mem_append.mp hh with hh | hh
  · exact h.headers_writable header hh
  · exact writable_ownHeaders hid hmark header hh

end Marked

/-! ## The attempts of a call -/

/-- The gateway's own answers. -/
def ownAnswers : List HttpResponse := [noHealthyBackends, backendRequestFailed, allRetriesExhausted]

/-- The hosts of the backends. -/
def Upstream.hosts (u : Upstream) : List Bytes := u.lb.backends.map (·.host)

theorem hosts_update (lb : LoadBalancer) (i : ℕ) {f : Backend → Backend} (hf : ∀ b, (f b).host = b.host) :
    (lb.update i f).backends.map (·.host) = lb.backends.map (·.host) := by
  refine List.ext_getElem? fun j => ?_
  simp only [LoadBalancer.update, List.getElem?_map, List.getElem?_modify]
  split
  · simp [hf, Function.comp_def]
  · simp

theorem hosts_addConnections (u : Upstream) (i : ℕ) (n : ℤ) : (u.addConnections i n).hosts = u.hosts :=
  hosts_update u.lb i fun _ => rfl

/-- An attempt counts its connection and takes it back. -/
theorem hosts_counted (u : Upstream) (i : ℕ) : ((u.addConnections i 1).addConnections i (-1)).hosts = u.hosts :=
  (hosts_addConnections _ i (-1)).trans (hosts_addConnections u i 1)

theorem hosts_report (u : Upstream) (i : ℕ) (ok : Bool) (now : ℤ) : (u.report i ok now).hosts = u.hosts :=
  hosts_update u.lb i fun _ => rfl

section Call

variable (cfg : ForwardConfig) (req : HttpRequest) (order : List (Σ _ : Bytes, Bytes))

/-- What an attempt of `forwardWithResilience` meets, with the upstream as it finds it. -/
def attempt (s : Surroundings) (u : Upstream) : Option Trial :=
  match u.lb.pickBackend.1 with
  | none => none
  | some (i, b) =>
    if (b.circuitBreaker.allowRequest s.now).1 then
      some (.exchanged i ((u.asked i b s.now).exchange cfg req order s i b).1)
    else some (.refused i)

/-- A call whose attempts find the upstream in any states: between two of them other calls pick backends, report to
the breakers, and take connections or put them back. -/
def forwardAmong (tries : List (Surroundings × Upstream)) : HttpResponse × List Trial :=
  attemptLoop (tries.map fun t => attempt cfg req order t.1 t.2)

variable {cfg req order}

/-- An exchange keeps the hosts, and a response comes from `sendAndReceive`. -/
theorem exchange_spec (s : Surroundings) (i : ℕ) (b : Backend) (u : Upstream) :
    (u.exchange cfg req order s i b).2.hosts = u.hosts ∧
      ∀ resp, (u.exchange cfg req order s i b).1 = some resp → ∃ reusable,
        sendAndReceive (buildBackendRequest req order b.host) cfg.maxResponseBodyBytes s.sends s.reads
          = some (resp, reusable) := by
  unfold Upstream.exchange
  dsimp only
  split
  · rename_i resp reusable hresult
    have hsend : sendAndReceive (buildBackendRequest req order b.host) cfg.maxResponseBodyBytes s.sends s.reads
        = some (resp, reusable) := by
      split at hresult
      · exact hresult
      · cases hresult
    split
    · exact ⟨(hosts_report _ i true s.failedAt).trans (hosts_counted u i),
        fun resp' heq => ⟨reusable, by rwa [← Option.some.inj heq]⟩⟩
    · exact ⟨(hosts_report _ i true s.failedAt).trans (hosts_counted u i),
        fun resp' heq => ⟨reusable, by rwa [← Option.some.inj heq]⟩⟩
  · refine ⟨(hosts_report _ i false s.failedAt).trans ?_, fun resp heq => by cases heq⟩
    split
    · exact hosts_counted u i
    · exact hosts_counted u i

/-- A call ends with the outcome of an exchange, or without one after the last. -/
theorem answer_eq_some {last : Bool} {outcome : Option HttpResponse} {resp : HttpResponse}
    (h : answer last outcome = some resp) :
    (last = true ∧ outcome = none ∧ resp = backendRequestFailed) ∨ outcome = some resp := by
  cases outcome with
  | none =>
    rw [answer, Option.ite_none_right_eq_some, Option.some.injEq] at h
    exact .inl ⟨h.1, rfl, h.2.symm⟩
  | some resp' =>
    refine .inr ?_
    rw [answer] at h
    split at h
    · exact h
    · split at h
      · exact h
      · split at h
        · exact h
        · cases h

/-- The outcome of the attempt is one that is retried. -/
def Trial.Retried : Trial → Prop
  | .exchanged _ (some resp) => isRetryable resp.statusCode = true
  | _ => True

/-- A call goes on after an outcome that is retried, and not after the last one. -/
theorem answer_eq_none {last : Bool} {outcome : Option HttpResponse} (h : answer last outcome = none) (i : ℕ) :
    last = false ∧ (Trial.exchanged i outcome).Retried := by
  cases outcome with
  | none =>
    rw [answer] at h
    split at h
    · cases h
    · rename_i hlast
      exact ⟨eq_false_of_ne_true hlast, trivial⟩
  | some resp =>
    rw [answer] at h
    split at h
    · cases h
    · split at h
      · cases h
      · rename_i hlast
        split at h
        · cases h
        · rename_i hretry
          exact ⟨eq_false_of_ne_true hlast, by simpa [Trial.Retried] using hretry⟩

section Attempt

variable {s : Surroundings} {u : Upstream} {i : ℕ} {b : Backend}

theorem attempt_of_none (h : u.lb.pickBackend.1 = none) : attempt cfg req order s u = none := by
  rw [attempt, h]

theorem attempt_of_refused (h : u.lb.pickBackend.1 = some (i, b)) (hrefused : ¬ b.circuitBreaker.Admits s.now) :
    attempt cfg req order s u = some (.refused i) := by
  rw [← b.circuitBreaker.allowRequest_fst_iff] at hrefused
  rw [attempt, h]
  exact if_neg hrefused

theorem attempt_of_admitted (h : u.lb.pickBackend.1 = some (i, b)) (hadmits : b.circuitBreaker.Admits s.now) :
    attempt cfg req order s u = some (.exchanged i ((u.asked i b s.now).exchange cfg req order s i b).1) := by
  rw [← b.circuitBreaker.allowRequest_fst_iff] at hadmits
  rw [attempt, h]
  exact if_pos hadmits

end Attempt

/-- Why the gateway answers itself: an attempt finds no backend, or the attempts are used up and the last one has
failed or was refused. No response is held back that is not retried. -/
inductive Declined (tries : List (Surroundings × Upstream)) (log : List Trial) : HttpResponse → Prop
  | noBackend {t : Surroundings × Upstream} : tries[log.length]? = some t → t.2.lb.pick.1 = none →
      (∀ trial ∈ log, trial.Retried) → Declined tries log noHealthyBackends
  | failed {i : ℕ} : log.length = tries.length → log.getLast? = some (.exchanged i none) →
      (∀ trial ∈ log, trial.Retried) → Declined tries log backendRequestFailed
  | exhausted : log.length = tries.length → (∀ i outcome, log.getLast? ≠ some (.exchanged i outcome)) →
      (∀ trial ∈ log, trial.Retried) → Declined tries log allRetriesExhausted

theorem Declined.mem_ownAnswers {tries : List (Surroundings × Upstream)} {log : List Trial} {resp : HttpResponse}
    (h : Declined tries log resp) : resp ∈ ownAnswers := by
  cases h with
  | noBackend => simp [ownAnswers]
  | failed => simp [ownAnswers]
  | exhausted => simp [ownAnswers]

/-- An attempt that is followed by others. -/
theorem Declined.cons {tries : List (Surroundings × Upstream)} {log : List Trial} {resp : HttpResponse}
    (h : Declined tries log resp) (t : Surroundings × Upstream) {trial : Trial} (hretried : trial.Retried)
    (hlast : tries = [] → trial.isExchange = false) : Declined (t :: tries) (trial :: log) resp := by
  have hall : (∀ trial ∈ log, trial.Retried) → ∀ trial' ∈ trial :: log, trial'.Retried :=
    fun hlog => List.forall_mem_cons.mpr ⟨hretried, hlog⟩
  cases h with
  | noBackend hnext hpick hlog => exact .noBackend hnext hpick (hall hlog)
  | failed hlen hend hlog =>
    exact .failed (by simp [hlen]) (by rw [List.getLast?_cons, hend, Option.getD_some]) (hall hlog)
  | exhausted hlen hend hlog =>
    refine .exhausted (by simp [hlen]) (fun i outcome heq => ?_) (hall hlog)
    cases log with
    | cons trial' log =>
      rw [List.getLast?_cons_cons] at heq
      exact hend i outcome heq
    | nil =>
      have htries : tries = [] := List.length_eq_zero_iff.mp hlen.symm
      rw [List.getLast?_singleton, Option.some.injEq] at heq
      rw [heq] at hlast
      exact absurd (hlast htries) (by simp [Trial.isExchange])

variable (cfg req order) in
/-- The answer of a call is the outcome of the exchange in one of its attempts. -/
def FromExchange (tries : List (Surroundings × Upstream)) (call : HttpResponse × List Trial) : Prop :=
  ∃ (k i : ℕ) (t : Surroundings × Upstream) (host : Bytes) (reusable : Bool), tries[k]? = some t ∧
    t.2.hosts[i]? = some host ∧ call.2[k]? = some (.exchanged i (some call.1)) ∧
    sendAndReceive (buildBackendRequest req order host) cfg.maxResponseBodyBytes t.1.sends t.1.reads
      = some (call.1, reusable)

theorem FromExchange.cons {tries : List (Surroundings × Upstream)} {call : HttpResponse × List Trial}
    (h : FromExchange cfg req order tries call) (t : Surroundings × Upstream) (trial : Trial) :
    FromExchange cfg req order (t :: tries) (call.1, trial :: call.2) := by
  obtain ⟨k, i, t', host, reusable, ht', hhost, hlog, hsend⟩ := h
  exact ⟨k + 1, i, t', host, reusable, ht', hhost, hlog, hsend⟩

/-- **Where an answer comes from**: from the gateway, or from the exchange of one of the attempts. -/
theorem forwardAmong_answer (tries : List (Surroundings × Upstream)) :
    Declined tries (forwardAmong cfg req order tries).2 (forwardAmong cfg req order tries).1 ∨
      FromExchange cfg req order tries (forwardAmong cfg req order tries) := by
  induction tries with
  | nil => exact .inl (.exhausted rfl (by simp [forwardAmong, attemptLoop]) (by simp [forwardAmong, attemptLoop]))
  | cons t tries ih =>
    rw [forwardAmong, List.map_cons]
    rw [forwardAmong] at ih
    cases hpick : t.2.lb.pickBackend.1 with
    | none =>
      rw [attempt_of_none hpick, attemptLoop]
      exact .inl (.noBackend (t := t) rfl ((LoadBalancer.pickBackend_fst_eq_none_iff _).mp hpick) (by simp))
    | some ib =>
      obtain ⟨i, b⟩ := ib
      by_cases hadmits : b.circuitBreaker.Admits t.1.now
      · obtain ⟨-, hsend⟩ := @exchange_spec cfg req order t.1 i b (t.2.asked i b t.1.now)
        rw [attempt_of_admitted hpick hadmits, attemptLoop]
        generalize ((t.2.asked i b t.1.now).exchange cfg req order t.1 i b).1 = outcome at hsend ⊢
        cases hanswer : answer (tries.map (fun t => attempt cfg req order t.1 t.2) = []) outcome with
        | none =>
          obtain ⟨hlast, hretried⟩ := answer_eq_none hanswer i
          dsimp only
          refine ih.imp (fun h => h.cons t hretried fun hnil => ?_) fun h => h.cons t _
          simp [hnil] at hlast
        | some resp =>
          dsimp only
          rcases answer_eq_some hanswer with ⟨hlast, rfl, rfl⟩ | rfl
          · obtain rfl : tries = [] := by simpa using hlast
            exact .inl (.failed rfl rfl (by simp [Trial.Retried]))
          · obtain ⟨reusable, hsend⟩ := hsend resp rfl
            have hhost : t.2.hosts[i]? = some b.host := by
              rw [Upstream.hosts, List.getElem?_map, ((t.2.lb.pickBackend_fst_eq_some_iff i b).mp hpick).2,
                Option.map_some]
            exact .inr ⟨0, i, t, b.host, reusable, rfl, hhost, rfl, hsend⟩
      · rw [attempt_of_refused hpick hadmits, attemptLoop]
        exact ih.imp (fun h => h.cons t trivial fun _ => rfl) fun h => h.cons t _

end Call

/-! ## Where answers come from -/

/-- The backends of the routes, and what each of them may send when the gateway has sent it something: any bytes at
all, and the connection may break off anywhere. -/
structure Backends (ρ : Type*) where
  cfg : ForwardConfig
  hosts : ρ → List Bytes
  sends : Bytes → Bytes → Bytes → Prop

/-- A request as `onReadable` gives it to `handleRequest`: read by the parser of a connection, with a new id. -/
def Incoming (req : HttpRequest) : Prop :=
  ∃ p q r seq random, Reached p ∧ p.parse {} = (.Complete, q, r) ∧
    req = { r with requestId := nextRequestId seq random }

theorem Incoming.fromParser {req : HttpRequest} (h : Incoming req) : FromParser req := by
  obtain ⟨p, q, r, seq, random, hp, hparse, rfl⟩ := h
  exact ⟨p, q, r, _, hp, hparse, rfl⟩

theorem Incoming.requestId {req : HttpRequest} (h : Incoming req) : IsRequestId req.requestId := by
  obtain ⟨p, q, r, seq, random, -, -, rfl⟩ := h
  exact isRequestId_nextRequestId seq random

/-- A backend that reads as the gateway does takes the request: the host is one word, and the headers are not too
many for it. -/
structure Deliverable (req : HttpRequest) (order : List (Σ _ : Bytes, Bytes)) (host : Bytes) : Prop where
  trimmed : trim host = host
  clean : ∀ c ∈ host, c ∉ crlf
  count_le : (backendHeaders req order host).length ≤ kMaxHeaderCount

namespace Backends

variable {ρ : Type*} (B : Backends ρ)

/-- The response is what the gateway has read from a backend of the route: from a beginning of something that the
backend may send for the gateway's request, which is the client's request if the backend can take it. -/
def Gives (route : ρ) (req : HttpRequest) (inner : HttpResponse) : Prop :=
  ∃ host ∈ B.hosts route, ∃ (order : List (Σ _ : Bytes, Bytes)) (stream : Bytes) (sends : List SendResult)
    (reads : List Bytes) (reusable : Bool), (order : Multiset (Σ _ : Bytes, Bytes)) = req.headers.entries ∧
    B.sends host (buildBackendRequest req order host) stream ∧ reads.flatten <+: stream ∧
    sendAndReceive (buildBackendRequest req order host) B.cfg.maxResponseBodyBytes sends reads
      = some (inner, reusable) ∧
    (Deliverable req order host → Accepts (buildBackendRequest req order host) (arriving req host) [])

/-- A call of `forwardWithResilience` on the backends of the route. Each of its attempts finds balancer, breakers and
pool in any state. -/
structure Forwarding (route : ρ) (req : HttpRequest) where
  /-- The headers in the order of their map. -/
  order : List (Σ _ : Bytes, Bytes)
  order_eq : (order : Multiset (Σ _ : Bytes, Bytes)) = req.headers.entries
  tries : List (Surroundings × Upstream)
  length_tries : tries.length = B.cfg.attempts
  hosts : ∀ t ∈ tries, t.2.hosts = B.hosts route
  /-- What is read in an exchange is a beginning of what the backend sends. -/
  reads : ∀ (k : ℕ) (t : Surroundings × Upstream) (i : ℕ) (outcome : Option HttpResponse) (host : Bytes),
    tries[k]? = some t → (forwardAmong B.cfg req order tries).2[k]? = some (.exchanged i outcome) →
    (B.hosts route)[i]? = some host →
    ∃ stream, B.sends host (buildBackendRequest req order host) stream ∧ t.1.reads.flatten <+: stream

variable {B}

/-- The answer, and what has happened in the attempts. -/
def Forwarding.result {route : ρ} {req : HttpRequest} (f : B.Forwarding route req) : HttpResponse × List Trial :=
  forwardAmong B.cfg req f.order f.tries

variable (B)

def Forwards (route : ρ) (req : HttpRequest) (answer : HttpResponse) : Prop :=
  ∃ f : B.Forwarding route req, f.result.1 = answer

/-- The gateway has a reason to answer itself. -/
def Declines (route : ρ) (req : HttpRequest) (answer : HttpResponse) : Prop :=
  ∃ f : B.Forwarding route req, f.result.1 = answer ∧ Declined f.tries f.result.2 answer

variable {B}

/-- **Answers come from backends**, or from the gateway for a reason. -/
theorem Forwards.origin {route : ρ} {req : HttpRequest} {answer : HttpResponse} (h : B.Forwards route req answer)
    (hreq : Incoming req) : B.Declines route req answer ∨ B.Gives route req answer := by
  obtain ⟨f, rfl⟩ := h
  refine (forwardAmong_answer f.tries).imp (fun hdeclined => ⟨f, rfl, hdeclined⟩) fun hfrom => ?_
  obtain ⟨k, i, t, host, reusable, ht, hhost, hlog, hsend⟩ := hfrom
  rw [f.hosts t (List.mem_of_getElem? ht)] at hhost
  obtain ⟨stream, hstream, hpart⟩ := f.reads k t i _ host ht hlog hhost
  refine ⟨host, List.mem_of_getElem? hhost, f.order, stream, _, _, reusable, f.order_eq, hstream, hpart, hsend,
    fun hdeliver => ?_⟩
  have hid := hreq.requestId
  obtain ⟨p, q, r, seq, random, hp, hparse, rfl⟩ := hreq
  exact accepts_buildBackendRequest hp hparse hid hdeliver.trimmed hdeliver.clean f.order_eq hdeliver.count_le

theorem Declines.mem_ownAnswers {route : ρ} {req : HttpRequest} {answer : HttpResponse}
    (h : B.Declines route req answer) : answer ∈ ownAnswers := by
  obtain ⟨f, -, hdeclined⟩ := h
  exact hdeclined.mem_ownAnswers

/-- What a backend gives is read by the client as it has been read by the gateway. -/
theorem Gives.writable {route : ρ} {req : HttpRequest} {inner : HttpResponse} (h : B.Gives route req inner) :
    (∀ h ∈ inner.headers, toLower h.1 = h.1) ∧ (¬ crlf <:+: inner.statusText → WritableResponse inner) := by
  obtain ⟨host, -, order, stream, sends, reads, reusable, -, -, -, hsend, -⟩ := h
  obtain ⟨r, headerEnd, hacc⟩ := exists_accepted hsend
  exact ⟨hacc.headers_lower, hacc.writable⟩

end Backends

/-- The answers of `forwardWithResilience` itself. -/
theorem writable_ownAnswers : ∀ resp ∈ ownAnswers,
    (∀ h ∈ resp.headers, toLower h.1 = h.1) ∧ WritableResponse resp ∧ resp.statusCode ≠ 200 := by
  intro resp hresp
  simp only [ownAnswers, List.mem_cons, List.not_mem_nil, or_false] at hresp
  rcases hresp with rfl | rfl | rfl
  all_goals
    refine ⟨fun h hh => ?_, ⟨by decide, by decide, fun h hh => ?_⟩, by decide⟩
    · cases hh
    · cases hh

/-- The paths that are never forwarded. -/
def ownPaths : List Bytes := [bytes "/metrics", bytes "/gateway/health"]

/-- The answers that need no backend. -/
inductive GatewayAnswer {ρ : Type*} (matchRoute : Bytes → Option ρ) (call : HandlerCall) : HttpResponse → Prop
  | metrics : call.req.path = bytes "/metrics" →
      GatewayAnswer matchRoute call ((HttpResponse.make 200 (bytes "OK") call.metrics).setHeader (bytes "Content-Type")
        (bytes "text/plain; version=0.0.4"))
  | health : call.req.path = bytes "/gateway/health" →
      GatewayAnswer matchRoute call (.make 200 (bytes "OK") (bytes "\x7b\"status\":\"ok\"\x7d"))
  | limited : call.req.path ∉ ownPaths → call.allowed = false →
      GatewayAnswer matchRoute call (.make 429 (bytes "Too Many Requests") (bytes "rate limit exceeded"))
  | unrouted : call.req.path ∉ ownPaths → call.allowed = true → matchRoute call.req.path = none →
      GatewayAnswer matchRoute call (.make 404 (bytes "Not Found") (bytes "no matching route"))

theorem GatewayAnswer.writable {ρ : Type*} {matchRoute : Bytes → Option ρ} {call : HandlerCall} {resp : HttpResponse}
    (h : GatewayAnswer matchRoute call resp) : WritableResponse resp := by
  cases h with
  | metrics =>
    have hfixed : InInt 200 ∧ ¬ crlf <:+: bytes "OK" := by decide
    refine ⟨hfixed.1, hfixed.2, fun h hh => ?_⟩
    rw [List.mem_singleton.mp hh]
    exact writableHeader_of_clean (by decide) (by decide) (by decide) (by decide) (by decide)
  | _ =>
    refine ⟨by decide, by decide, fun h hh => ?_⟩
    cases hh

/-- All other requests go to the backends of a route. -/
structure Admitted {ρ : Type*} (matchRoute : Bytes → Option ρ) (call : HandlerCall) (route : ρ) : Prop where
  path : call.req.path ∉ ownPaths
  allowed : call.allowed = true
  matches_route : matchRoute call.req.path = some route

/-! ## Whole runs -/

section Runs

variable {ρ : Type*} (B : Backends ρ) (matchRoute : Bytes → Option ρ) (cacheable : ρ → Bool) (calls : ℕ → HandlerCall)

/-- `cacheableRequest` in `handleRequest`. -/
def cacheableRequest (cacheable : ρ → Bool) (req : HttpRequest) (route : ρ) : Bool :=
  cacheable route && (req.method = bytes "GET" || req.method = bytes "HEAD")

/-- What call `t` may be answered with, when the others are as far as in `c`. -/
inductive Answer (c : Config ResponseCache (Handling ρ)) (t : ℕ) : HttpResponse → Prop
  /-- By the gateway, without a backend. -/
  | own {resp : HttpResponse} : GatewayAnswer matchRoute (calls t) resp → Answer c t resp
  /-- With what a backend has given for the request, or by the gateway because none has. -/
  | relayed {route : ρ} {inner : HttpResponse} : Admitted matchRoute (calls t) route →
      (B.Declines route (calls t).req inner ∨ B.Gives route (calls t).req inner) →
      Answer c t (marked inner (calls t).req.requestId
        (if cacheableRequest cacheable (calls t).req route && inner.statusCode == 200 then some (bytes "MISS")
          else none))
  /-- With what a backend has given for an earlier request for the same target, which was stored. -/
  | replayed {route : ρ} {inner earlier : HttpResponse} {u : ℕ} : Admitted matchRoute (calls t) route →
      Eligible matchRoute cacheable (calls t) route → Eligible matchRoute cacheable (calls u) route →
      (calls u).req.method = (calls t).req.method → (calls u).req.path = (calls t).req.path →
      (calls u).req.query = (calls t).req.query → c.threads u = .answered (calls u) earlier .stored →
      B.Gives route (calls u).req inner → inner.statusCode = 200 →
      Answer c t (marked inner (calls t).req.requestId (some (bytes "HIT")))

/-- How far a call is, and if it is answered, with what. -/
def Explained (c : Config ResponseCache (Handling ρ)) (t : ℕ) : Handling ρ → Prop
  | .arrived call => call = calls t
  | .forwarding call route b =>
    call = calls t ∧ Admitted matchRoute (calls t) route ∧ b = cacheableRequest cacheable (calls t).req route
  | .answered call resp _ => call = calls t ∧ Answer B matchRoute cacheable calls c t resp

variable {B matchRoute cacheable calls}

/-- An answer stays explained while other calls go on. -/
theorem Explained.mono {c c' : Config ResponseCache (Handling ρ)} {t : ℕ} {s : Handling ρ}
    (h : Explained B matchRoute cacheable calls c t s)
    (hstays : ∀ u resp, c.threads u = .answered (calls u) resp .stored →
      c'.threads u = .answered (calls u) resp .stored) : Explained B matchRoute cacheable calls c' t s := by
  cases s with
  | arrived call => exact h
  | forwarding call route b => exact h
  | answered call resp source =>
    refine ⟨h.1, ?_⟩
    obtain ⟨-, hanswer⟩ := h
    cases hanswer with
    | own hown => exact .own hown
    | relayed hadmitted horigin => exact .relayed hadmitted horigin
    | replayed hadmitted heligible heligible' hmethod hpath hquery hu hgives hstatus =>
      exact .replayed hadmitted heligible heligible' hmethod hpath hquery (hstays _ _ hu) hgives hstatus

/-- The first step of a call. -/
theorem handleStep_arrived_answers (call : HandlerCall) (cache : ResponseCache) :
    (∃ resp, GatewayAnswer matchRoute call resp ∧
      (handleStep matchRoute cacheable cache (.arrived call)).2 = .answered call resp .own) ∨
    ∃ route, Admitted matchRoute call route ∧
      ((handleStep matchRoute cacheable cache (.arrived call)).2
          = .forwarding call route (cacheableRequest cacheable call.req route) ∨
        ∃ cached, Eligible matchRoute cacheable call route ∧
          (cache.get call.req.cacheKey call.getTime).1 = some cached ∧
          (handleStep matchRoute cacheable cache (.arrived call)).2
            = .answered call (replay cached call.req.requestId) .hit) := by
  simp only [handleStep]
  split
  · rename_i hmetrics
    exact .inl ⟨_, .metrics hmetrics, rfl⟩
  rename_i hmetrics
  split
  · rename_i hhealth
    exact .inl ⟨_, .health hhealth, rfl⟩
  rename_i hhealth
  have hpath : call.req.path ∉ ownPaths := by simp [ownPaths, hmetrics, hhealth]
  split
  · rename_i hlimited
    exact .inl ⟨_, .limited hpath (by simpa using hlimited), rfl⟩
  rename_i hallowed
  have hallowed : call.allowed = true := by simpa using hallowed
  cases hroute : matchRoute call.req.path with
  | none => exact .inl ⟨_, .unrouted hpath hallowed hroute, rfl⟩
  | some route =>
    refine .inr ⟨route, ⟨hpath, hallowed, hroute⟩, ?_⟩
    dsimp only
    rw [← cacheableRequest]
    split
    · rename_i hcacheable
      cases hget : cache.get call.req.cacheKey call.getTime with
      | mk found cache' =>
        cases found with
        | none => exact .inl (by rw [hcacheable])
        | some cached =>
          rw [cacheableRequest, Bool.and_eq_true, Bool.or_eq_true, decide_eq_true_iff, decide_eq_true_iff] at hcacheable
          exact .inr ⟨cached, ⟨hroute, hcacheable.1, hcacheable.2⟩, rfl, rfl⟩
    · exact .inl rfl

variable (matchRoute cacheable) in
/-- The second step of a call, for an answer whose headers have names in lower case. -/
theorem handleStep_forwarding_marked (call : HandlerCall) (route : ρ) (b : Bool) (cache : ResponseCache)
    (hlower : ∀ h ∈ call.answer.headers, toLower h.1 = h.1) :
    ∃ source, (handleStep matchRoute cacheable cache (.forwarding call route b)).2
      = .answered call (marked call.answer call.req.requestId
          (if b && call.answer.statusCode == 200 then some (bytes "MISS") else none)) source := by
  have hforClient : ∀ stored, _ = _ := fun stored => forClient_eq hlower call.req.requestId stored
  have hstatus : (call.answer.setHeader (bytes "X-Request-Id") call.req.requestId).statusCode
      = call.answer.statusCode := rfl
  simp only [handleStep, hstatus]
  split
  · exact ⟨.stored, congrArg (Handling.answered call · .stored) (hforClient true)⟩
  · exact ⟨.forwarded, congrArg (Handling.answered call · .forwarded) (hforClient false)⟩

/-- **Every call is answered with something genuine.** -/
structure Transparent (capacity : ℕ) (ttl : ℤ) (B : Backends ρ) (matchRoute : Bytes → Option ρ) (cacheable : ρ → Bool)
    (calls : ℕ → HandlerCall) (c : Config ResponseCache (Handling ρ)) : Prop where
  genuine : Genuine matchRoute cacheable capacity ttl calls c
  explained : ∀ t, Explained B matchRoute cacheable calls c t (c.threads t)

section Step

variable {capacity : ℕ} {ttl : ℤ} (hreq : ∀ t, Incoming (calls t).req)
  (hforwards : ∀ t route, matchRoute (calls t).req.path = some route →
    B.Forwards route (calls t).req (calls t).answer)

include hreq hforwards

/-- An answer of `forwardWithResilience` has names in lower case. -/
theorem headers_lower_answer {t : ℕ} {route : ρ} (hroute : matchRoute (calls t).req.path = some route) :
    ∀ h ∈ (calls t).answer.headers, toLower h.1 = h.1 := by
  rcases (hforwards t route hroute).origin (hreq t) with hdeclines | hgives
  · exact (writable_ownAnswers _ hdeclines.mem_ownAnswers).1
  · exact hgives.writable.1

/-- A hit goes back to a call that has stored its answer. -/
theorem Genuine.replayed {c : Config ResponseCache (Handling ρ)}
    (h : Genuine matchRoute cacheable capacity ttl calls c) {t : ℕ} {route : ρ} {cached : CachedResponse}
    (hadmitted : Admitted matchRoute (calls t) route) (heligible : Eligible matchRoute cacheable (calls t) route)
    (hget : (c.shared.get (calls t).req.cacheKey (calls t).getTime).1 = some cached) :
    Answer B matchRoute cacheable calls c t (replay cached (calls t).req.requestId) := by
  obtain ⟨l, hholds, horigin⟩ := h.entries
  obtain ⟨-, -, -, hfound⟩ := hholds.get (calls t).req.cacheKey (calls t).getTime
  obtain ⟨e, he, hkey, rfl, -⟩ := hfound cached hget
  obtain ⟨u, earlier, hu, rfl⟩ := horigin e he
  have hlegit := h.legit u
  rw [hu] at hlegit
  obtain ⟨-, hstatus, route', heligible'⟩ := hlegit.2 rfl
  obtain ⟨hmethod, hpath, hquery⟩ := cacheKey_inj (hreq u).fromParser (hreq t).fromParser hkey
  obtain rfl : route' = route := by
    have := heligible'.matches_route
    rw [hpath, heligible.matches_route] at this
    exact (Option.some.inj this).symm
  rw [replay_eq (headers_lower_answer hreq hforwards heligible'.matches_route)]
  refine .replayed hadmitted heligible heligible' hmethod hpath hquery hu ?_ hstatus
  -- the gateway's own answers have another status
  exact ((hforwards u route' heligible'.matches_route).origin (hreq u)).resolve_left fun hdeclines =>
    (writable_ownAnswers _ hdeclines.mem_ownAnswers).2.2 hstatus

/-- **One step of a call.** -/
theorem Transparent.step (c : Config ResponseCache (Handling ρ)) (t : ℕ)
    (h : Transparent capacity ttl B matchRoute cacheable calls c) :
    Transparent capacity ttl B matchRoute cacheable calls (stepThread (handleStep matchRoute cacheable) c t) := by
  have hstays : ∀ u resp, c.threads u = .answered (calls u) resp .stored →
      (stepThread (handleStep matchRoute cacheable) c t).threads u = .answered (calls u) resp .stored := by
    intro u resp hu
    by_cases heq : u = t
    · subst heq
      rw [stepThread_self, hu]
      rfl
    · rw [stepThread_of_ne c heq, hu]
  refine ⟨h.genuine.step c t, fun u => ?_⟩
  by_cases heq : u = t
  · subst heq
    rw [stepThread_self]
    refine Explained.mono (c := c) ?_ hstays
    have hexplained := h.explained u
    cases hthread : c.threads u with
    | arrived call =>
      rw [hthread] at hexplained
      obtain rfl : call = calls u := hexplained
      rcases handleStep_arrived_answers (calls u) c.shared with ⟨resp, hown, hstep⟩ | ⟨route, hadmitted, hstep |
        ⟨cached, heligible, hget, hstep⟩⟩
      · rw [hstep]
        exact ⟨rfl, .own hown⟩
      · rw [hstep]
        exact ⟨rfl, hadmitted, rfl⟩
      · rw [hstep]
        exact ⟨rfl, h.genuine.replayed hreq hforwards hadmitted heligible hget⟩
    | forwarding call route b =>
      rw [hthread] at hexplained
      obtain ⟨rfl, hadmitted, rfl⟩ := hexplained
      have hroute := hadmitted.matches_route
      obtain ⟨source, hstep⟩ := handleStep_forwarding_marked matchRoute cacheable (calls u) route
        (cacheableRequest cacheable (calls u).req route) c.shared (headers_lower_answer hreq hforwards hroute)
      rw [hstep]
      exact ⟨rfl, .relayed hadmitted ((hforwards u route hroute).origin (hreq u))⟩
    | answered call resp source =>
      rw [hthread] at hexplained
      exact hexplained
  · rw [stepThread_of_ne c heq]
    exact (h.explained u).mono hstays

end Step

/-- Every answer can be read by the client, unless a backend's status text is broken. -/
theorem Answer.writable {c : Config ResponseCache (Handling ρ)} {t : ℕ} {resp : HttpResponse}
    (h : Answer B matchRoute cacheable calls c t resp) (hid : IsRequestId (calls t).req.requestId)
    (htext : ¬ crlf <:+: resp.statusText) : WritableResponse resp := by
  cases h with
  | own hown => exact hown.writable
  | @relayed route inner hadmitted horigin =>
    have hinner : WritableResponse inner := by
      rcases horigin with hdeclines | hgives
      · exact (writable_ownAnswers _ hdeclines.mem_ownAnswers).2.1
      · exact hgives.writable.2 htext
    refine hinner.marked hid ?_
    split
    · simp
    · simp
  | replayed hadmitted heligible heligible' hmethod hpath hquery hu hgives hstatus =>
    exact (hgives.writable.2 htext).marked hid (by simp)

end Runs

end ApiGateway.Core
