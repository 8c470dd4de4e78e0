import ApiGateway.Core.ResponseLines
import ApiGateway.Core.Worker
import ApiGateway.Http.Emitted

/-!
# The framing of forwarded responses

What the client gets of a backend's response, read with the rules of `HttpParser`: the header lines up to
the first empty line, names trimmed and in lower case. `serialize` writes one `Content-Length` and one
`Connection` of its own, so the message is framed exactly when the backend adds no line of these names and
no `Transfer-Encoding` (`framed_append_iff`).

The backend's lines come from two places. The header loop of `sendAndReceive` compares untrimmed names,
and lets a name with white space around it through. And a status line without its second space turns
lines of the stream into status text (`strayLines`), which then stands before the headers and may even
end the header section.

Reference: `sendAndReceive` and `Worker::handleRequest` in `src/core/Gateway.cpp`,
`include/http/HttpResponse.hpp`, `include/observability/RequestId.hpp`.
-/

namespace ApiGateway.Core

open Str Http HttpResponse HttpParser

/-! ## Headers as the parser reads them -/

/-- The name of a header line. -/
def fieldName (line : Bytes) : Option Bytes := (line.findIdx? (· = colon)).map (headerKey line)

/-- The value of a header line. -/
def fieldValue (line : Bytes) : Option Bytes := (line.findIdx? (· = colon)).map (headerValue line)

def named (name line : Bytes) : Bool := fieldName line = some name

/-- The headers that say where a message ends, and what happens to the connection then. -/
def framingNames : List Bytes := [bytes "content-length", bytes "connection", bytes "transfer-encoding"]

/-- Header lines with unambiguous framing of a body of `n` bytes. -/
structure Framed (ls : List Bytes) (n : ℕ) : Prop where
  contentLength : ∃ line value, ls.filter (named (bytes "content-length")) = [line] ∧
    fieldValue line = some value ∧ fromChars value = some (n, value.length)
  connection : (ls.filter (named (bytes "connection"))).length = 1
  transferEncoding : ls.filter (named (bytes "transfer-encoding")) = []

theorem fieldName_split {name : Bytes} (hname : colon ∉ name) (rest : Bytes) :
    fieldName (name ++ colon :: rest) = some (toLower (trim name)) := by
  rw [fieldName, findIdx?_eq_append_cons rest hname, Option.map_some, headerKey]
  simp [substr]

theorem fieldValue_split {name : Bytes} (hname : colon ∉ name) (rest : Bytes) :
    fieldValue (name ++ colon :: rest) = some (trim rest) := by
  rw [fieldValue, findIdx?_eq_append_cons rest hname, Option.map_some, headerValue,
    ← List.drop_drop, List.drop_left]
  rfl

/-- Lower-casing a name does not move its ends. -/
theorem trim_toLower (s : Bytes) : trim (toLower s) = toLower (trim s) := by
  have hspace : (fun c => decide (c ∉ [sp, tab])) ∘ tolower = fun c => decide (c ∉ [sp, tab]) := by
    funext c
    simp only [Function.comp_apply, List.mem_cons, List.not_mem_nil, or_false,
      tolower_eq_iff (show sp.toNat < 65 by decide), tolower_eq_iff (show tab.toNat < 65 by decide)]
  have hspaceCr : (fun c => decide (c ∉ [sp, tab, cr])) ∘ tolower
      = fun c => decide (c ∉ [sp, tab, cr]) := by
    funext c
    simp only [Function.comp_apply, List.mem_cons, List.not_mem_nil, or_false,
      tolower_eq_iff (show sp.toNat < 65 by decide), tolower_eq_iff (show tab.toNat < 65 by decide),
      tolower_eq_iff (show cr.toNat < 65 by decide)]
  have hsubstr : ∀ a n, substr (toLower s) a n = toLower (substr s a n) := by
    intro a n
    rw [substr, toLower, ← List.map_drop, ← List.map_take]
    rfl
  have hlast : findLastIdx? (· ∉ [sp, tab, cr]) (toLower s) = findLastIdx? (· ∉ [sp, tab, cr]) s := by
    rw [findLastIdx?, findLastIdx?, toLower, ← List.map_reverse, List.findIdx?_map, hspaceCr,
      List.length_map]
  unfold trim
  rw [hlast, toLower, List.findIdx?_map, hspace, ← toLower]
  cases s.findIdx? (· ∉ [sp, tab]) with
  | none => rfl
  | some a => cases findLastIdx? (· ∉ [sp, tab, cr]) s <;> exact hsubstr _ _

/-- A header that `serialize` writes, as the parser reads it. -/
theorem fieldName_headerLine {name : Bytes} (hname : colon ∉ name) (value : Bytes) :
    fieldName (headerLine (name, value)) = some (toLower (trim name)) := by
  rw [headerLine, List.append_assoc]
  exact fieldName_split hname _

/-! ## Whose lines are in the message -/

theorem named_iff (name line : Bytes) : named name line = true ↔ fieldName line = some name := by
  rw [named, decide_eq_true_eq]

theorem filter_named_eq_nil_iff (name : Bytes) (ls : List Bytes) :
    ls.filter (named name) = [] ↔ ∀ l ∈ ls, fieldName l ≠ some name := by
  simp only [List.filter_eq_nil_iff, named_iff, ne_eq]

/-- A line in front of lines with unambiguous framing spoils it exactly if it is a framing header. -/
theorem framed_append_iff {ls own : List Bytes} {n : ℕ} (hown : Framed own n) :
    Framed (ls ++ own) n ↔ ∀ l ∈ ls, ∀ name ∈ framingNames, fieldName l ≠ some name := by
  obtain ⟨⟨line, value, hline, hvalue, hn⟩, hconn, hte⟩ := hown
  have hforall : (∀ l ∈ ls, ∀ name ∈ framingNames, fieldName l ≠ some name) ↔
      ls.filter (named (bytes "content-length")) = [] ∧
      ls.filter (named (bytes "connection")) = [] ∧
      ls.filter (named (bytes "transfer-encoding")) = [] := by
    simp only [filter_named_eq_nil_iff, framingNames, List.mem_cons, List.not_mem_nil, or_false,
      forall_eq_or_imp, forall_eq, forall_and]
  rw [hforall]
  constructor
  · rintro ⟨⟨line', value', hline', -, -⟩, hconn', hte'⟩
    simp only [List.filter_append, hline] at hline'
    rw [List.filter_append, List.length_append, hconn] at hconn'
    rw [List.filter_append, List.append_eq_nil_iff] at hte'
    refine ⟨?_, ?_, hte'.1⟩
    · have := congrArg List.length hline'
      rw [List.length_append, List.length_singleton, List.length_singleton] at this
      exact List.length_eq_zero_iff.mp (by omega)
    · exact List.length_eq_zero_iff.mp (by omega)
  · rintro ⟨hcl', hconn', hte'⟩
    refine ⟨⟨line, value, ?_, hvalue, hn⟩, ?_, ?_⟩
    · rw [List.filter_append, hcl', hline, List.nil_append]
    · rw [List.filter_append, hconn', List.nil_append, hconn]
    · rw [List.filter_append, hte', List.nil_append, hte]

theorem lines_lineBytes {ls : List Bytes} (hls : ∀ l ∈ ls, ¬ crlf <:+: l) (body : Bytes) :
    lines cr lf (lineBytes ls ++ crlf ++ body) = ls ++ [] :: lines cr lf body := by
  induction ls with
  | nil => exact lines_sep body
  | cons l ls ih =>
    obtain ⟨hl, hls⟩ := List.forall_mem_cons.mp hls
    rw [lineBytes_cons, List.append_assoc, List.append_assoc, List.append_assoc, crlf, List.cons_append,
      List.cons_append, List.nil_append, lines_append (by decide), lines_unbroken hl, ← crlf, ← List.append_assoc,
      ih hls]
    rfl

/-- The header lines of a message on the wire: further lines of the status text come first, and an empty
one among them hides the headers. -/
theorem sectionLines_message {statusLine body : Bytes} {ls : List Bytes}
    (hls : ∀ l ∈ ls, l ≠ [] ∧ ¬ crlf <:+: l) :
    sectionLines cr lf (statusLine ++ crlf ++ lineBytes ls ++ crlf ++ body)
      = if [] ∈ (lines cr lf statusLine).tail then
          (lines cr lf statusLine).tail.takeWhile (· ≠ [])
        else (lines cr lf statusLine).tail ++ ls := by
  have hsection := lines_lineBytes (fun l hl => (hls l hl).2) body
  have hlines : lines cr lf (statusLine ++ crlf ++ lineBytes ls ++ crlf ++ body)
      = lines cr lf statusLine ++ (ls ++ [] :: lines cr lf body) := by
    rw [← hsection, List.append_assoc, List.append_assoc, List.append_assoc, crlf, List.cons_append,
      List.cons_append, List.nil_append, lines_append (by decide), ← crlf, List.append_assoc]
  have htail : (lines cr lf statusLine ++ (ls ++ [] :: lines cr lf body)).tail
      = (lines cr lf statusLine).tail ++ (ls ++ [] :: lines cr lf body) :=
    List.tail_append_of_ne_nil (lines_ne_nil _)
  rw [sectionLines, hlines, htail]
  split
  · rename_i hmem
    rw [List.takeWhile_append, if_neg]
    intro hall
    have := (List.takeWhile_prefix _).eq_of_length hall
    rw [List.takeWhile_eq_self_iff] at this
    simpa using this [] hmem
  · rename_i hmem
    have hpos : ∀ l ∈ (lines cr lf statusLine).tail, decide (l ≠ []) = true := by
      intro l hl
      simp only [decide_eq_true_eq]
      rintro rfl
      exact hmem hl
    have hpos' : ∀ l ∈ ls, decide (l ≠ []) = true := fun l hl => by simpa using (hls l hl).1
    rw [List.takeWhile_append_of_pos hpos, List.takeWhile_append_of_pos hpos',
      List.takeWhile_cons_of_neg (by simp), List.append_nil]

/-! ## The gateway's lines -/

/-- `RequestIdGenerator::next`, with what the counter and the random number generator give. -/
def nextRequestId (seq : UInt64) (random : ℕ) : Bytes :=
  bytes "req-" ++ hex seq.toNat ++ bytes "-" ++ hex random

theorem cr_not_mem_nextRequestId (seq : UInt64) (random : ℕ) : cr ∉ nextRequestId seq random := by
  have hhex : ∀ n, cr ∉ hex n := fun n hmem => absurd (mem_of_mem_hex hmem) (by decide)
  simp only [nextRequestId, List.mem_append, hhex, or_false]
  decide

/-- The response after `handleRequest`'s `setHeader` calls; a response that is stored in the cache has
one more. -/
def forClient (out : HttpResponse) (requestId : Bytes) (stored : Bool) : HttpResponse :=
  let resp := out.setHeader (bytes "X-Request-Id") requestId
  if stored then resp.setHeader (bytes "X-Cache") (bytes "MISS") else resp

/-- The message that `handleRequest` queues for a forwarded request. -/
theorem exists_forClient {σ ρ : Type*} (sys : Subsystems σ ρ) (c : ClientConnection) (req : HttpRequest)
    (route : ρ) (cacheableRequest : Bool) (gw : σ) :
    ∃ stored, (forwardRequest sys c req route cacheableRequest gw).1.2
      = .queued ((forClient (sys.forwardWithResilience route req gw).1 req.requestId stored).serialize
          (!!req.keepAlive)) (!req.keepAlive) := by
  unfold forwardRequest
  dsimp only
  split
  · exact ⟨true, rfl⟩
  · exact ⟨false, rfl⟩

/-- The header lines that the gateway adds. -/
def ownLines (requestId : Bytes) (stored : Bool) (n : ℕ) (keepAlive : Bool) : List Bytes :=
  headerLine (bytes "X-Request-Id", requestId)
    :: (if stored then [headerLine (bytes "X-Cache", bytes "MISS")] else [])
    ++ [headerLine (bytes "Content-Length", decimal n),
      headerLine (bytes "Connection", bytes (if keepAlive then "keep-alive" else "close"))]

/-- The names in these lines. -/
def ownNames : List Bytes := [bytes "X-Request-Id", bytes "X-Cache", bytes "Content-Length", bytes "Connection"]

/-- The gateway's names are four, none in lower case, and a reader finds them in their lines. -/
theorem ownNames_plain :
    ownNames.Nodup ∧ (∀ name ∈ ownNames, toLower name ≠ name ∧ colon ∉ name ∧ cr ∉ name) ∧
      ownNames.map (fun name => toLower (trim name))
        = [bytes "x-request-id", bytes "x-cache", bytes "content-length", bytes "connection"] := by
  decide

/-- The reserved names differ, and two of the gateway's are not among them. -/
theorem reservedKeys_plain :
    ([bytes "x-request-id", bytes "x-cache"] ++ reservedKeys).Nodup ∧ ∀ key ∈ reservedKeys, trim key = key := by
  decide

theorem framingNames_sublist : framingNames.Sublist reservedKeys := List.sublist_append_left framingNames _

theorem setHeader_of_ne {resp : HttpResponse} {k : Bytes} (v : Bytes)
    (h : ∀ header ∈ resp.headers, header.1 ≠ k) :
    resp.setHeader k v = { resp with headers := resp.headers ++ [(k, v)] } := by
  have hgo : ∀ hs : List (Bytes × Bytes), (∀ header ∈ hs, header.1 ≠ k) →
      setHeader.go k v hs = hs ++ [(k, v)] := by
    intro hs
    induction hs with
    | nil => intro; rfl
    | cons header hs ih =>
      intro hne
      obtain ⟨hhead, hne⟩ := List.forall_mem_cons.mp hne
      rw [setHeader.go, if_neg hhead, ih hne, List.cons_append]
  rw [setHeader, hgo _ h]

/-- Names in lower case are none of those that the gateway sets. -/
theorem ne_of_lower {out : HttpResponse} (hlower : ∀ h ∈ out.headers, toLower h.1 = h.1) {name : Bytes}
    (hname : name ∈ ownNames) : ∀ h ∈ out.headers, h.1 ≠ name := by
  rintro h hh rfl
  exact (ownNames_plain.2.1 h.1 hname).1 (hlower h hh)

theorem headers_forClient {out : HttpResponse} (hlower : ∀ h ∈ out.headers, toLower h.1 = h.1) (requestId : Bytes)
    (stored : Bool) :
    (forClient out requestId stored).headers = out.headers
      ++ (bytes "X-Request-Id", requestId) :: (if stored then [(bytes "X-Cache", bytes "MISS")] else []) := by
  have hdiffer : bytes "X-Request-Id" ≠ bytes "X-Cache" := by decide
  have hcache : ∀ h ∈ out.headers ++ [(bytes "X-Request-Id", requestId)], h.1 ≠ bytes "X-Cache" := by
    intro h hh
    rcases List.mem_append.mp hh with hh | hh
    · exact ne_of_lower hlower (by simp [ownNames]) h hh
    · obtain rfl := List.mem_singleton.mp hh
      exact hdiffer
  unfold forClient
  rw [setHeader_of_ne requestId (ne_of_lower hlower (by simp [ownNames]))]
  cases stored with
  | false => rfl
  | true =>
    rw [if_pos rfl, setHeader_of_ne _ hcache, List.append_assoc]
    rfl

theorem headerLines_forClient {out : HttpResponse} (hlower : ∀ h ∈ out.headers, toLower h.1 = h.1)
    (requestId : Bytes) (stored keepAlive : Bool) :
    (forClient out requestId stored).headerLines keepAlive
      = out.headers.map headerLine ++ ownLines requestId stored out.body.length keepAlive := by
  have hnodup := ownNames_plain.1
  simp only [ownNames, List.nodup_cons, List.mem_cons, not_or] at hnodup
  obtain ⟨⟨-, hidLength, hidConn, -⟩, ⟨hcacheLength, hcacheConn, -⟩, -⟩ := hnodup
  have hbody : (forClient out requestId stored).body = out.body := by
    unfold forClient
    cases stored <;> rfl
  have hheaders := headers_forClient hlower requestId stored
  have hany : ∀ k ∈ ownNames, bytes "X-Request-Id" ≠ k → bytes "X-Cache" ≠ k →
      (forClient out requestId stored).headers.any (·.1 = k) = false := by
    intro k hk hidk hcachek
    rw [List.any_eq_false, hheaders]
    intro h hh
    simp only [decide_eq_true_eq]
    rcases List.mem_append.mp hh with hh | hh
    · exact ne_of_lower hlower hk h hh
    · rcases List.mem_cons.mp hh with rfl | hh
      · exact hidk
      · cases stored with
        | false => exact absurd hh List.not_mem_nil
        | true =>
          obtain rfl := List.mem_singleton.mp hh
          exact hcachek
  rw [HttpResponse.headerLines, hany (bytes "Content-Length") (by simp [ownNames]) hidLength hcacheLength,
    hany (bytes "Connection") (by simp [ownNames]) hidConn hcacheConn, hheaders, hbody]
  cases stored <;> simp [ownLines]

theorem fieldValue_contentLength (n : ℕ) :
    fieldValue (headerLine (bytes "Content-Length", decimal n)) = some (decimal n) := by
  have hdigit : ∀ c ∈ decimal n, c ∉ [sp, tab, cr] := by
    intro c hc hspace
    have := isdigit_of_mem_decimal hc
    simp only [List.mem_cons, List.not_mem_nil, or_false] at hspace
    rcases hspace with rfl | rfl | rfl <;> exact absurd this (by decide)
  have hspace : ∀ c ∈ decimal n, c ∉ [sp, tab] := by
    intro c hc hmem
    exact hdigit c hc (List.mem_append_left [cr] hmem)
  have htrimmed : Trimmed (decimal n) :=
    ⟨fun c hc => hspace c (List.mem_of_mem_head? hc), fun c hc => hspace c (List.mem_of_getLast? hc)⟩
  have hcr : cr ∉ decimal n := fun hmem => hdigit cr hmem (by decide)
  have hcolon : colon ∉ bytes "Content-Length" := (ownNames_plain.2.1 _ (by simp [ownNames])).2.1
  rw [headerLine, List.append_assoc]
  exact (fieldValue_split hcolon _).trans (congrArg some (trim_sp_cons htrimmed hcr))

/-- The gateway's own lines frame the message. -/
theorem framed_ownLines (requestId : Bytes) (stored : Bool) {n : ℕ} (hn : n < 2 ^ 64) (keepAlive : Bool) :
    Framed (ownLines requestId stored n keepAlive) n := by
  have hname : ∀ name ∈ ownNames, ∀ value, fieldName (headerLine (name, value)) = some (toLower (trim name)) :=
    fun name hmem value => fieldName_headerLine (ownNames_plain.2.1 name hmem).2.1 value
  obtain ⟨hidKey, hcacheKey, hlengthKey, hconnKey⟩ :
      toLower (trim (bytes "X-Request-Id")) = bytes "x-request-id" ∧
      toLower (trim (bytes "X-Cache")) = bytes "x-cache" ∧
      toLower (trim (bytes "Content-Length")) = bytes "content-length" ∧
      toLower (trim (bytes "Connection")) = bytes "connection" := by
    simpa only [ownNames, List.map_cons, List.map_nil, List.cons.injEq, and_true] using ownNames_plain.2.2
  obtain ⟨hidOther, hcacheOther, hnodup⟩ :
      bytes "x-request-id" ∉ framingNames ∧ bytes "x-cache" ∉ framingNames ∧ framingNames.Nodup := by
    have hall := reservedKeys_plain.1.sublist ((List.Sublist.refl _).append framingNames_sublist)
    simp only [List.cons_append, List.nil_append, List.nodup_cons, List.mem_cons, not_or] at hall
    exact ⟨hall.1.2, hall.2⟩
  have hid := (hname _ (by simp [ownNames]) requestId).trans (congrArg some hidKey)
  have hcache := (hname _ (by simp [ownNames]) (bytes "MISS")).trans (congrArg some hcacheKey)
  have hcl := (hname _ (by simp [ownNames]) (decimal n)).trans (congrArg some hlengthKey)
  have hconn := (hname _ (by simp [ownNames]) (bytes (if keepAlive then "keep-alive" else "close"))).trans
    (congrArg some hconnKey)
  have htwo : Framed [headerLine (bytes "Content-Length", decimal n),
      headerLine (bytes "Connection", bytes (if keepAlive then "keep-alive" else "close"))] n := by
    simp only [framingNames, List.nodup_cons, List.mem_cons, List.not_mem_nil, or_false, not_or] at hnodup
    obtain ⟨⟨hlengthConn, hlengthCoding⟩, hconnCoding, -⟩ := hnodup
    have hne := And.intro (Ne.symm hlengthConn) (And.intro hlengthConn (And.intro hlengthCoding hconnCoding))
    refine ⟨⟨_, decimal n, ?_, fieldValue_contentLength n, fromChars_decimal hn⟩, ?_, ?_⟩
    · simp [named, hcl, hconn, hne]
    · simp [named, hcl, hconn, hne]
    · simp [named, hcl, hconn, hne]
  refine (framed_append_iff htwo).mpr ?_
  intro l hl name hframing heq
  rcases List.mem_cons.mp hl with rfl | hl
  · rw [hid] at heq
    exact absurd (Option.some.inj heq ▸ hframing) hidOther
  · cases stored with
    | false => exact absurd hl List.not_mem_nil
    | true =>
      obtain rfl := List.mem_singleton.mp hl
      rw [hcache] at heq
      exact absurd (Option.some.inj heq ▸ hframing) hcacheOther

/-! ## The backend's lines -/

/-- The second space of a stream. -/
def secondSpace (raw : Bytes) : Option ℕ :=
  (raw.findIdx? (· = sp)).bind fun i => ((raw.drop (i + 1)).findIdx? (· = sp)).map (i + 1 + ·)

/-- The lines that a backend can put between the status line and the headers. There are none if the second
space of the stream stands in its first line. Otherwise what follows the space becomes the status text;
the length of that text is a difference below zero, which wraps around. -/
def strayLines (raw : Bytes) : List Bytes :=
  match secondSpace raw with
  | none => []
  | some p =>
    if p < (firstLine raw).length then []
    else (lines cr lf (substr raw (p + 1) (sizeSub (sizeSub (firstLine raw).length p) 1))).tail

/-- The number in the first `Content-Length` line. -/
def announcedLength (ls : List Bytes) : Option ℕ :=
  (ls.find? (lineName · = bytes "content-length")).bind fun l => (fromChars (lineValue l)).map Prod.fst

section Response

variable {maxBodyBytes : ℕ} {ls : List Bytes} {h h' : ResponseHead}

/-- By induction on the lines: a length is taken once, and never again. -/
theorem foldlM_contentLength (hfold : ls.foldlM (ResponseHead.readLine maxBodyBytes) h = some h') :
    (h.gotContentLength = true → h'.gotContentLength = true ∧ h'.contentLength = h.contentLength) ∧
    (h.gotContentLength = false → h'.gotContentLength = true →
      announcedLength ls = some h'.contentLength) := by
  induction ls generalizing h with
  | nil =>
    obtain rfl : h = h' := Option.some.inj hfold
    exact ⟨fun hgot => ⟨hgot, rfl⟩, fun hnot hgot => absurd (hnot ▸ hgot) (by decide)⟩
  | cons l ls ih =>
    obtain ⟨h₁, hread, hfold⟩ := exists_readLine hfold
    obtain ⟨hkeep, hfind⟩ := ih hfold
    have hnext : lineName l ≠ bytes "content-length" → announcedLength (l :: ls) = announcedLength ls := by
      intro hne
      rw [announcedLength, List.find?_cons_of_neg (by simpa using hne)]
      rfl
    have hother : bytes "content-length" ∉ reservedKeys.tail :=
      (List.nodup_cons.mp (reservedKeys_plain.1.sublist (List.sublist_append_right _ _))).1
    rw [reservedKeys, List.tail_cons] at hother
    rcases (readLine_cases hread).2 with ⟨hname, hgot, n, hchars, rfl⟩ | ⟨hname, rfl⟩ | ⟨hname, rfl⟩ |
      ⟨hname, rfl⟩
    · refine ⟨fun hgot' => absurd (hgot ▸ hgot') (by decide), fun _ _ => ?_⟩
      rw [announcedLength, List.find?_cons_of_pos (by simpa using hname), (hkeep rfl).2]
      simp [hchars]
    · rw [hnext fun heq => hother (by simp [← heq, hname])]
      exact ⟨hkeep, hfind⟩
    · rw [hnext fun heq => hother (List.mem_append_right [_, _] (heq ▸ hname))]
      exact ⟨hkeep, hfind⟩
    · rw [hnext fun heq => hname (by simp [heq, reservedKeys])]
      exact ⟨hkeep, hfind⟩

end Response

variable {maxBodyBytes : ℕ} {reads : List Bytes} {out : HttpResponse} {reusable : Bool} {r : Reader}
  {headerEnd : ℕ}

/-- The response in terms of the stream. -/
theorem Accepted.response_eq (hacc : Accepted maxBodyBytes reads out reusable r headerEnd) :
    ∃ p, secondSpace r.raw = some p ∧
      out.statusText = substr r.raw (p + 1) (sizeSub (sizeSub (firstLine r.raw).length p) 1) ∧
      out.headers = r.head.headers ∧ out.body.length = r.head.contentLength := by
  obtain ⟨rest, hraw, -, hfirst, -⟩ := exists_lines_of_find hacc.found
  have hend : find r.raw crlf = some (firstLine r.raw).length := by
    conv_lhs => rw [hraw]
    simp only [List.append_assoc]
    rw [← List.append_assoc]
    exact find_crlf hfirst _
  have hresponse := hacc.response
  have henough := hacc.enough
  unfold Reader.response at hresponse
  rw [hacc.headerEnd_eq, hend] at hresponse
  cases hi : r.raw.findIdx? (· = sp) with
  | none => simp [hi] at hresponse
  | some i =>
    cases hk : (r.raw.drop (i + 1)).findIdx? (· = sp) with
    | none => simp [hi, hk] at hresponse
    | some k =>
      simp only [hi, hk, Option.some.injEq] at hresponse
      subst hresponse
      refine ⟨i + 1 + k, by simp [secondSpace, hi, hk], rfl, rfl, ?_⟩
      simp only [substr, List.length_take, List.length_drop]
      omega

theorem two_le_count_of_secondSpace {line rest : Bytes} {p : ℕ}
    (h : secondSpace (line ++ rest) = some p) (hlt : p < line.length) : 2 ≤ line.count sp := by
  obtain ⟨i, hi, h⟩ := Option.bind_eq_some_iff.mp h
  obtain ⟨k, hk, rfl⟩ := Option.map_eq_some_iff.mp h
  obtain ⟨l, r, hsplit, rfl, -⟩ := exists_of_findIdx?_eq hi
  rw [hsplit, drop_length_append_cons] at hk
  obtain ⟨l', r', rfl, rfl, -⟩ := exists_of_findIdx?_eq hk
  have hprefix : l ++ sp :: (l' ++ [sp]) <+: line := by
    refine List.prefix_of_prefix_length_le ?_ (List.prefix_append line rest) ?_
    · exact ⟨r', by rw [hsplit]; simp⟩
    · simp only [List.length_append, List.length_cons, List.length_nil]
      omega
  have hcount := hprefix.sublist.count_le sp
  simp only [List.count_append, List.count_cons_self] at hcount
  omega

/-- The further lines of the status text. -/
theorem Accepted.tail_lines_statusText (hacc : Accepted maxBodyBytes reads out reusable r headerEnd) :
    (lines cr lf out.statusText).tail = strayLines r.raw := by
  obtain ⟨p, hp, htext, -⟩ := hacc.response_eq
  unfold strayLines
  simp only [hp]
  split
  · rename_i hlt
    obtain ⟨rest, hraw, -⟩ := exists_lines_of_find hacc.found
    have hcount : 2 ≤ (firstLine r.raw).count sp := by
      rw [hraw, List.append_assoc, List.append_assoc, List.append_assoc] at hp
      exact two_le_count_of_secondSpace hp hlt
    rw [lines_unbroken (hacc.readStatus_eq hcount).1]
    rfl
  · rw [htext]

/-- The backend's headers are the header lines that are kept. -/
theorem Accepted.headers_eq (hacc : Accepted maxBodyBytes reads out reusable r headerEnd) :
    out.headers
      = ((headerSection r.raw).filter isKept).map fun l => (lineName l, lineValue l) := by
  obtain ⟨p, -, -, hheaders, -⟩ := hacc.response_eq
  rw [hheaders, foldlM_headers hacc.head_eq, List.nil_append]

theorem Accepted.announcedLength_eq (hacc : Accepted maxBodyBytes reads out reusable r headerEnd) :
    announcedLength (headerSection r.raw) = some out.body.length := by
  obtain ⟨p, -, -, -, hbody⟩ := hacc.response_eq
  rw [hbody]
  exact (foldlM_contentLength hacc.head_eq).2 rfl hacc.got

theorem lt_of_announcedLength {ls : List Bytes} {n : ℕ} (h : announcedLength ls = some n) : n < 2 ^ 64 := by
  obtain ⟨l, -, h⟩ := Option.bind_eq_some_iff.mp h
  obtain ⟨⟨m, stop⟩, hchars, rfl⟩ := Option.map_eq_some_iff.mp h
  unfold fromChars at hchars
  simp only at hchars
  split at hchars
  · simp at hchars
  · split at hchars
    · simp at hchars
    · rename_i hlt
      rw [Option.some.injEq, Prod.mk.injEq] at hchars
      omega

theorem not_crlf_toLower {s : Bytes} (h : ¬ crlf <:+: s) : ¬ crlf <:+: toLower s := by
  intro hin
  obtain ⟨t, ht, heq⟩ := List.infix_map_iff.mp hin
  have hcrlf : t = crlf := by
    rcases t with _ | ⟨x, _ | ⟨y, _ | ⟨z, t⟩⟩⟩
    · simp [crlf] at heq
    · simp [crlf] at heq
    · simp only [crlf, List.map_cons, List.map_nil, List.cons.injEq, and_true] at heq ⊢
      exact ⟨(tolower_eq_iff (by decide)).mp heq.1.symm, (tolower_eq_iff (by decide)).mp heq.2.symm⟩
    · simp [crlf] at heq
  exact h (hcrlf ▸ ht)

/-- The two readers of a name differ in the white space around it. -/
theorem fieldName_eq {l : Bytes} (hcolon : colon ∈ l) : fieldName l = some (trim (lineName l)) := by
  obtain ⟨name, rest, rfl, hname⟩ := List.eq_append_cons_of_mem hcolon
  rw [fieldName_split hname, lineName, takeWhile_ne_append_cons rest hname, trim_toLower]

theorem colon_not_mem_lineName (l : Bytes) : colon ∉ lineName l := by
  rw [lineName, mem_toLower_iff (by decide)]
  intro hmem
  simpa using List.mem_takeWhile_imp hmem

/-- A header line on its way to the client, whatever the backend has written in it. -/
theorem kept_line {l : Bytes} (hcolon : colon ∈ l) (hl : ¬ crlf <:+: l) :
    headerLine (lineName l, lineValue l) ≠ [] ∧ ¬ crlf <:+: headerLine (lineName l, lineValue l) := by
  obtain ⟨name, rest, rfl, hname⟩ := List.eq_append_cons_of_mem hcolon
  have hlineName : lineName (name ++ colon :: rest) = toLower name := by
    rw [lineName, takeWhile_ne_append_cons rest hname]
  have hlineValue : lineValue (name ++ colon :: rest) = rest.dropWhile isspace := by
    rw [lineValue, dropWhile_ne_append_cons rest hname]
    rfl
  have hnameUnbroken : ¬ crlf <:+: toLower name :=
    not_crlf_toLower fun hin => hl (hin.trans (List.prefix_append _ _).isInfix)
  have hvalueUnbroken : ¬ crlf <:+: rest.dropWhile isspace := by
    intro hin
    apply hl
    exact hin.trans ((List.dropWhile_suffix _).trans
      ((List.suffix_cons _ _).trans (List.suffix_append _ _))).isInfix
  rw [hlineName, hlineValue]
  refine ⟨by simp [headerLine, bytes], ?_⟩
  rw [headerLine, List.append_assoc]
  exact not_infix_append_cons (by decide) (by decide) hnameUnbroken
    (not_infix_append_cons (l := []) (by decide) (by decide) (by simp) hvalueUnbroken)

/-! ## Unambiguous framing -/

/-- The streams that are forwarded with unambiguous framing: no framing header is hidden behind white space
around its name or in the status text. Where the status text ends the header section, the lines before the
empty one would have to frame the body by themselves. -/
def Unambiguous (raw : Bytes) : Prop :=
  if [] ∈ strayLines raw then
    ∃ n ∈ announcedLength (headerSection raw), Framed ((strayLines raw).takeWhile (· ≠ [])) n
  else
    (∀ l ∈ strayLines raw, ∀ name ∈ framingNames, fieldName l ≠ some name) ∧
      ∀ l ∈ headerSection raw, ∀ name ∈ framingNames, fieldName l = some name → lineName l = name

/-- The lines of the message are unbroken. -/
theorem ownLines_unbroken {requestId : Bytes} (hid : cr ∉ requestId) (stored : Bool) (n : ℕ)
    (keepAlive : Bool) :
    ∀ l ∈ ownLines requestId stored n keepAlive, l ≠ [] ∧ ¬ crlf <:+: l := by
  have hline : ∀ name value : Bytes, cr ∉ name → cr ∉ value →
      headerLine (name, value) ≠ [] ∧ ¬ crlf <:+: headerLine (name, value) := by
    intro name value hname hvalue
    have hisLine := isLine_headerLine hname hvalue
    exact ⟨hisLine.1, unbroken_of_not_mem hisLine.2⟩
  have hdigits : cr ∉ decimal n := fun hmem => absurd (isdigit_of_mem_decimal hmem) (by decide)
  have hname : ∀ name ∈ ownNames, cr ∉ name := fun name hmem => (ownNames_plain.2.1 name hmem).2.2
  intro l hl
  simp only [ownLines, List.cons_append, List.mem_cons, List.mem_append, List.not_mem_nil,
    or_false] at hl
  rcases hl with rfl | hl | rfl | rfl
  · exact hline _ _ (hname _ (by simp [ownNames])) hid
  · cases stored with
    | false => simp at hl
    | true =>
      obtain rfl := List.mem_singleton.mp hl
      exact hline _ _ (hname _ (by simp [ownNames])) (by decide)
  · exact hline _ _ (hname _ (by simp [ownNames])) hdigits
  · exact hline _ _ (hname _ (by simp [ownNames])) (by cases keepAlive <;> decide)

/-- A framing header among the kept lines has a framing name only without the white space around it. -/
theorem kept_framing_iff (hacc : Accepted maxBodyBytes reads out reusable r headerEnd) :
    (∀ l ∈ out.headers.map headerLine, ∀ name ∈ framingNames, fieldName l ≠ some name) ↔
      ∀ l ∈ headerSection r.raw, ∀ name ∈ framingNames, fieldName l = some name → lineName l = name := by
  have hlines := foldlM_lines hacc.head_eq
  have hreserved : (∀ key ∈ reservedKeys, trim key = key) ∧ ∀ name ∈ framingNames, name ∈ reservedKeys :=
    ⟨reservedKeys_plain.2, fun name hname => framingNames_sublist.subset hname⟩
  have hfield : ∀ l, fieldName (headerLine (lineName l, lineValue l)) = some (trim (lineName l)) := by
    intro l
    rw [fieldName_headerLine (colon_not_mem_lineName l), ← trim_toLower, lineName, toLower_toLower]
  rw [hacc.headers_eq]
  simp only [List.map_map, List.forall_mem_map, List.mem_filter, Function.comp_apply, and_imp, hfield]
  constructor
  · intro hkept l hl name hframing heq
    rw [fieldName_eq (hlines l hl).1] at heq
    by_contra hne
    by_cases hreservedLine : lineName l ∈ reservedKeys
    · rw [hreserved.1 _ hreservedLine] at heq
      exact hne (Option.some.inj heq)
    · exact hkept l hl (by simpa [isKept] using hreservedLine) name hframing heq
  · intro hcond l hl hkept name hframing heq
    rw [← fieldName_eq (hlines l hl).1] at heq
    have hname := hcond l hl name hframing heq
    have hnot : lineName l ∉ reservedKeys := by simpa [isKept] using hkept
    exact hnot (hname ▸ hreserved.2 name hframing)

/-- What the backend has put behind its status line comes behind the gateway's. -/
theorem tail_lines_statusLine (hacc : Accepted maxBodyBytes reads out reusable r headerEnd) (requestId : Bytes)
    (stored : Bool) : (lines cr lf (forClient out requestId stored).statusLine).tail = strayLines r.raw := by
  have hdigits : cr ∉ decimalInt out.statusCode := by
    intro hmem
    rcases eq_or_isdigit_of_mem_decimalInt hmem with heq | hdigit
    · exact absurd heq (by decide)
    · exact absurd hdigit (by decide)
  have hcode : cr ∉ bytes "HTTP/1.1 " ++ decimalInt out.statusCode ++ [sp] := by
    simp only [List.mem_append, hdigits, or_false]
    decide
  have hline : (forClient out requestId stored).statusLine
      = bytes "HTTP/1.1 " ++ decimalInt out.statusCode ++ [sp] ++ out.statusText := by
    unfold forClient
    cases stored <;> rfl
  rw [hline, tail_lines_append hcode, hacc.tail_lines_statusText]

/-- The header lines that the client sees. -/
theorem sectionLines_forClient (hacc : Accepted maxBodyBytes reads out reusable r headerEnd)
    {requestId : Bytes} (hid : cr ∉ requestId) (stored keepAlive : Bool) :
    sectionLines cr lf ((forClient out requestId stored).serialize keepAlive)
      = if [] ∈ strayLines r.raw then (strayLines r.raw).takeWhile (· ≠ [])
        else strayLines r.raw
          ++ (out.headers.map headerLine ++ ownLines requestId stored out.body.length keepAlive) := by
  obtain ⟨rest, -, -, -, hsection⟩ := exists_lines_of_find hacc.found
  have hkept : ∀ l ∈ out.headers.map headerLine, l ≠ [] ∧ ¬ crlf <:+: l := by
    rw [hacc.headers_eq]
    simp only [List.map_map, List.forall_mem_map, List.mem_filter, Function.comp_apply, and_imp]
    intro l hl _
    exact kept_line (foldlM_lines hacc.head_eq l hl).1 (hsection l hl).2
  have hlower : ∀ h ∈ out.headers, toLower h.1 = h.1 := by
    rw [hacc.headers_eq]
    simp only [List.forall_mem_map]
    intro l _
    rw [lineName, toLower_toLower]
  have hlines : ∀ l ∈ (forClient out requestId stored).headerLines keepAlive, l ≠ [] ∧ ¬ crlf <:+: l := by
    rw [headerLines_forClient hlower]
    intro l hl
    rcases List.mem_append.mp hl with hl | hl
    · exact hkept l hl
    · exact ownLines_unbroken hid stored _ keepAlive l hl
  have hwire : (forClient out requestId stored).serialize keepAlive
      = (forClient out requestId stored).statusLine ++ crlf
        ++ lineBytes ((forClient out requestId stored).headerLines keepAlive) ++ crlf
        ++ (forClient out requestId stored).body := rfl
  rw [hwire, sectionLines_message hlines, tail_lines_statusLine hacc, headerLines_forClient hlower]

/-- **When a forwarded response has unambiguous framing.** For every stream that `sendAndReceive` accepts,
the message that `handleRequest` queues has exactly one `Content-Length`, which is the length of the body,
exactly one `Connection` and no `Transfer-Encoding`, if and only if the stream is unambiguous. -/
theorem forwarded_framing_iff {σ ρ : Type*} (sys : Subsystems σ ρ) (c : ClientConnection)
    (req : HttpRequest) (route : ρ) (cacheableRequest : Bool) (gw : σ) (seq : UInt64) (random : ℕ)
    (hid : req.requestId = nextRequestId seq random)
    (request : Bytes) (maxBodyBytes : ℕ) (sends : List SendResult) (reads : List Bytes)
    (out : HttpResponse) (reusable : Bool)
    (h : sendAndReceive request maxBodyBytes sends reads = some (out, reusable))
    (hout : (sys.forwardWithResilience route req gw).1 = out) :
    ∃ r wire, receive maxBodyBytes reads {} = some r ∧
      (forwardRequest sys c req route cacheableRequest gw).1.2 = .queued wire (!req.keepAlive) ∧
      (Framed (sectionLines cr lf wire) out.body.length ↔ Unambiguous r.raw) := by
  obtain ⟨r, headerEnd, hacc⟩ := exists_accepted h
  obtain ⟨stored, hwire⟩ := exists_forClient sys c req route cacheableRequest gw
  refine ⟨r, _, hacc.received, hwire, ?_⟩
  have hlength := hacc.announcedLength_eq
  have hown := framed_ownLines (nextRequestId seq random) stored (lt_of_announcedLength hlength)
    (!!req.keepAlive)
  rw [hout, hid, sectionLines_forClient hacc (cr_not_mem_nextRequestId seq random), Unambiguous]
  split
  · rw [hlength]
    simp only [Option.mem_def, Option.some.injEq, exists_eq_left']
  · rw [← List.append_assoc, framed_append_iff hown, ← kept_framing_iff hacc]
    simp only [List.mem_append, or_imp, forall_and]

/-- A length behind a name with a space after it, and the length of the empty body. -/
def spacedName : List Bytes :=
  [bytes "HTTP/1.1 200 OK\r\nContent-Length : 3\r\nContent-Length: 0\r\n\r\n"]

/-- A gateway that gets one response from its backends, and allows everything. -/
def forwarding (out : HttpResponse) : Subsystems Unit Unit where
  nextRequestId gw := (nextRequestId 0 0, gw)
  toPrometheusText _ := []
  allow _ gw := (true, gw)
  matchRoute _ := some ()
  cacheable _ := false
  cacheGet _ gw := (none, gw)
  cachePut _ _ gw := gw
  forwardWithResilience _ _ gw := (out, gw)

theorem forwarded_framing_spacedName :
    ∃ r wire, receive 1024 spacedName {} = some r ∧
      (forwardRequest (forwarding { headers := [(bytes "content-length ", bytes "3")] })
        { clientIp := [], lastActivity := 0 } { requestId := nextRequestId 0 0 } () false ()).1.2
        = .queued wire false ∧
      (Framed (sectionLines cr lf wire) 0 ↔ Unambiguous r.raw) :=
  forwarded_framing_iff (forwarding { headers := [(bytes "content-length ", bytes "3")] })
    { clientIp := [], lastActivity := 0 } { requestId := nextRequestId 0 0 } () false () 0 0 rfl
    [] 1024 [] spacedName { headers := [(bytes "content-length ", bytes "3")] } false
    (by decide) rfl

/-- The client gets two lengths. -/
theorem forwarded_framing_ambiguous :
    ¬ ∀ (request : Bytes) (maxBodyBytes : ℕ) (sends : List SendResult) (reads : List Bytes)
        (out : HttpResponse) (reusable : Bool) (seq : UInt64) (random : ℕ) (stored keepAlive : Bool),
      sendAndReceive request maxBodyBytes sends reads = some (out, reusable) →
      Framed (sectionLines cr lf ((forClient out (nextRequestId seq random) stored).serialize keepAlive))
        out.body.length := by
  intro hframed
  have hrun : sendAndReceive [] 1024 [] spacedName
      = some ({ headers := [(bytes "content-length ", bytes "3")] }, false) := by decide
  obtain ⟨⟨line, value, hline, -⟩, -, -⟩ := hframed [] 1024 [] spacedName _ _ 0 0 false true hrun
  have hlength := congrArg List.length hline
  rw [List.length_singleton] at hlength
  exact absurd hlength (by decide)

end ApiGateway.Core
