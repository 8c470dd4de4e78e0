import ApiGateway.Http.Stale

/-!
# Repeated header lines and declared codings

A header line overwrites an earlier one of the same name, so that of the lines with one name the last value
is what a request carries (`lookup_insertFields_eq`). The values of the others are lost unless they are
empty (`coalesced_iff`).

A declared transfer coding is refused if its value mentions `chunked`, or if a length is announced as well.
Any other coding passes, and the message is taken to have no body (`codings_refused_iff`).
-/

namespace ApiGateway.Http

open Str HttpParser Resumable

/-! ## Repeated names -/

/-- The values of the lines with a name, in order of arrival. -/
def valuesOf (fs : List FieldLine) (name : Bytes) : List Bytes :=
  (fs.filter (·.key = name)).map FieldLine.value

theorem valuesOf_concat (fs : List FieldLine) (f : FieldLine) (name : Bytes) :
    valuesOf (fs ++ [f]) name
      = if f.key = name then valuesOf fs name ++ [f.value] else valuesOf fs name := by
  by_cases hkey : f.key = name
  · simp [valuesOf, hkey]
  · simp [valuesOf, hkey]

theorem insertFields_concat (m : HeaderMap) (fs : List FieldLine) (f : FieldLine) :
    insertFields m (fs ++ [f]) = (insertFields m fs).insert f.key f.value := by
  simp only [insertFields, insertAll, List.map_append, List.foldl_append, List.map_cons, List.map_nil,
    List.foldl_cons, List.foldl_nil]

/-- **The last line with a name counts.** -/
theorem lookup_insertFields_eq (fs : List FieldLine) (name : Bytes) :
    (insertFields ∅ fs).lookup name = (valuesOf fs name).getLast? := by
  induction fs using List.reverseRecOn with
  | nil => rfl
  | append_singleton fs f ih =>
    rw [insertFields_concat, valuesOf_concat]
    by_cases hkey : f.key = name
    · rw [if_pos hkey, ← hkey, Finmap.lookup_insert, List.getLast?_concat]
    · rw [if_neg hkey, Finmap.lookup_insert_of_ne _ (Ne.symm hkey), ih]

/-- A header is carried exactly when a line has its name. -/
theorem mem_insertFields_iff (fs : List FieldLine) (name : Bytes) :
    name ∈ insertFields ∅ fs ↔ name ∈ fs.map FieldLine.key := by
  rw [← Finmap.lookup_isSome, lookup_insertFields_eq, List.getLast?_isSome, valuesOf, ne_eq,
    List.map_eq_nil_iff, List.filter_eq_nil_iff]
  simp

/-- The text has the values in it, one behind the other, with anything around and between them. -/
def JoinedIn : List Bytes → Bytes → Prop
  | [], _ => True
  | v :: vs, text => ∃ before rest, text = before ++ v ++ rest ∧ JoinedIn vs rest

theorem JoinedIn.length_le {vs : List Bytes} {text : Bytes} (h : JoinedIn vs text) :
    vs.flatten.length ≤ text.length := by
  induction vs generalizing text with
  | nil => exact Nat.zero_le _
  | cons v vs ih =>
    obtain ⟨before, rest, rfl, hrest⟩ := h
    have := ih hrest
    simp only [List.flatten_cons, List.length_append]
    omega

/-- One of the values has room for the others only if these are empty. -/
theorem joinedIn_concat_iff (vs : List Bytes) (last : Bytes) :
    JoinedIn (vs ++ [last]) last ↔ ∀ v ∈ vs, v = [] := by
  constructor
  · intro h
    have hle := h.length_le
    rw [List.flatten_concat, List.length_append] at hle
    exact List.flatten_eq_nil_iff.mp (List.length_eq_zero_iff.mp (by omega))
  · intro h
    induction vs with
    | nil => exact ⟨[], [], by simp, trivial⟩
    | cons v vs ih =>
      obtain ⟨rfl, hrest⟩ := List.forall_mem_cons.mp h
      exact ⟨[], last, rfl, ih hrest⟩

/-- The header with this name carries the values of all lines with this name, in order of arrival. -/
def Coalesced (headers : HeaderMap) (fs : List FieldLine) (name : Bytes) : Prop :=
  valuesOf fs name = [] ∨ ∃ text, headers.lookup name = some text ∧ JoinedIn (valuesOf fs name) text

theorem coalesced_insertFields_iff (fs : List FieldLine) (name : Bytes) :
    Coalesced (insertFields ∅ fs) fs name ↔ ∀ v ∈ (valuesOf fs name).dropLast, v = [] := by
  rw [Coalesced, lookup_insertFields_eq]
  rcases List.eq_nil_or_concat (valuesOf fs name) with hnil | ⟨vs, last, hvs⟩
  · simp [hnil]
  · rw [List.concat_eq_append] at hvs
    rw [hvs, List.getLast?_concat, List.dropLast_concat, ← joinedIn_concat_iff vs last]
    simp

/-- **What becomes of repeated header lines.** A request that is completed begins with a head that the buffer begins
with. Its headers carry the values of all lines if and only if, of the lines with one name other than the framing
ones, all but the last have an empty value. The body has the announced length unless `reset` has left another. -/
theorem coalesced_iff (p q : HttpParser) (out r : HttpRequest) (hp : Used (fun _ => True) p)
    (hparse : p.parse out = (.Complete, q, r)) :
    ∃ (h : RequestHead) (body : Bytes), p.buffer = h.toBytes ++ body ++ q.buffer ∧
      r = { h.request body with requestId := out.requestId } ∧
      ((∀ name, name ∉ framingKeys → Coalesced r.headers h.fields name) ↔
        ∀ name, name ∉ framingKeys → ∀ v ∈ (valuesOf h.fields name).dropLast, v = []) ∧
      (Used (·.contentLength = 0) p → body.length = h.contentLength) := by
  have hvalues : ∀ fs : List FieldLine,
      (∀ name, name ∉ framingKeys → Coalesced (insertFields ∅ fs) fs name) ↔
        ∀ name, name ∉ framingKeys → ∀ v ∈ (valuesOf fs name).dropLast, v = [] := fun fs =>
    forall_congr' fun name => imp_congr_right fun _ => coalesced_insertFields_iff fs name
  by_cases hlength : Used (·.contentLength = 0) p
  · obtain ⟨-, ⟨h, body, -, hlen, hbuffer, rfl⟩, rfl⟩ := hlength.accepts hparse
    exact ⟨h, body, hbuffer, rfl, hvalues h.fields, fun _ => hlen⟩
  · obtain ⟨h, body, hbuffer, rfl⟩ := hp.completes hparse
    exact ⟨h, body, hbuffer, rfl, hvalues h.fields, fun hnot => absurd hnot hlength⟩

def cookieRequest : Bytes := bytes "GET / HTTP/1.1\r\nCookie: a=1\r\nCookie: b=2\r\n\r\n"

/-- **A lost cookie.** Of two cookies the second is all that the completed request carries. -/
theorem cookie_lost :
    ((HttpParser.append {} cookieRequest).parse {}).1 = .Complete ∧
      ((HttpParser.append {} cookieRequest).parse {}).2.2.headers.lookup (bytes "cookie")
        = some (bytes "b=2") ∧
      ¬ JoinedIn [bytes "a=1", bytes "b=2"] (bytes "b=2") := by
  refine ⟨by decide, by decide, ?_⟩
  intro h
  have := (joinedIn_concat_iff [bytes "a=1"] (bytes "b=2")).mp h (bytes "a=1") List.mem_cons_self
  simp [bytes] at this

theorem clean_of_all {l bad : Bytes} (h : (l.all fun c => decide (c ∉ bad)) = true) : ∀ c ∈ l, c ∉ bad :=
  fun c hc => of_decide_eq_true (List.all_eq_true.mp h c hc)

/-- The lines of a head that these bytes begin with. -/
theorem valuesOf_cookieRequest {h : RequestHead} {w : Bytes} (hbytes : cookieRequest = h.toBytes ++ w) :
    valuesOf h.fields (bytes "cookie") = [bytes "a=1", bytes "b=2"] := by
  let first : FieldLine :=
    ⟨bytes "Cookie", bytes " a=1", by decide, by decide, by decide, clean_of_all (by decide), clean_of_all (by decide)⟩
  let second : FieldLine :=
    ⟨bytes "Cookie", bytes " b=2", by decide, by decide, by decide, clean_of_all (by decide), clean_of_all (by decide)⟩
  have hcut : cut crlf cookieRequest
      = some (bytes "GET / HTTP/1.1", fieldBytes [first, second] ++ crlf ++ []) := by decide
  rw [hbytes, RequestHead.toBytes, cut_heads] at hcut
  rw [(fieldBytes_inj (Prod.mk.inj (Option.some.inj hcut)).2).1]
  decide

/-- For two cookies both sides are false. -/
theorem coalesced_iff_cookie :
    ∃ (h : RequestHead) (body : Bytes),
      (HttpParser.append {} cookieRequest).buffer = h.toBytes ++ body ++ [] ∧
      ((HttpParser.append {} cookieRequest).parse {}).2.2 = { h.request body with requestId := [] } ∧
      ¬ (∀ name, name ∉ framingKeys → Coalesced
          ((HttpParser.append {} cookieRequest).parse {}).2.2.headers h.fields name) ∧
      body.length = h.contentLength := by
  have hparse : (HttpParser.append {} cookieRequest).parse {}
      = (.Complete, {}, ((HttpParser.append {} cookieRequest).parse {}).2.2) := by decide
  have hused : ∀ R, Used R (HttpParser.append {} cookieRequest) := fun R => .append _ .fresh
  obtain ⟨h, body, hbuffer, hr, hiff, hlen⟩ := coalesced_iff _ {} {} _ (hused _) hparse
  refine ⟨h, body, hbuffer, hr, fun hall => ?_, hlen (hused _)⟩
  have hcookie := hiff.mp hall (bytes "cookie") (by decide)
  rw [List.append_assoc] at hbuffer
  rw [valuesOf_cookieRequest hbuffer] at hcookie
  simp [bytes] at hcookie

/-! ## Transfer codings -/

def DeclaresCoding (fs : List FieldLine) : Prop := bytes "transfer-encoding" ∈ fs.map FieldLine.key

/-- The parser has a reason to refuse header lines: there are too many, a framing header comes twice, a
length is announced besides the coding, or the coding mentions `chunked`. -/
def Refused (fs : List FieldLine) : Prop :=
  kMaxHeaderCount < fs.length ∨
    (∃ key ∈ framingKeys, 1 < (fs.map FieldLine.key).count key) ∨
    bytes "content-length" ∈ fs.map FieldLine.key ∨
    ∃ f ∈ fs, f.key = bytes "transfer-encoding" ∧ bytes "chunked" <:+: toLower f.value

/-- Behind the line `l`, the header lines `fs` and the blank line, `w` follows. -/
def Heads (l : RequestLine) (fs : List FieldLine) (w b : Bytes) : Prop :=
  b = l.toBytes ++ crlf ++ fieldBytes fs ++ crlf ++ w

/-- Without such a reason the lines are those of a request. -/
theorem exists_head_of_not_refused {l : RequestLine} {fs : List FieldLine} (h : ¬ Refused fs) :
    ∃ k : RequestHead, k.line = l ∧ k.fields = fs ∧ k.contentLength = 0 := by
  simp only [Refused, not_or, not_exists, not_and, not_lt] at h
  obtain ⟨hcount, honce, hlen, hcoding⟩ := h
  have hframed : Framed fs := by
    refine ⟨fun hboth => hlen hboth.1, hcoding, fun f hf hkey => ?_⟩
    exact absurd (List.mem_map.mpr ⟨f, hf, hkey⟩) hlen
  refine ⟨⟨l, fs, hcount, honce, hframed⟩, rfl, rfl, ?_⟩
  rw [RequestHead.contentLength, announcedLength, fieldValue_eq_none_iff.mpr hlen]
  rfl

/-- With one they are not, if they declare a coding. -/
theorem not_refused_fields (k : RequestHead) (h : DeclaresCoding k.fields) : ¬ Refused k.fields := by
  rintro (hcount | ⟨key, hkey, honce⟩ | hlen | ⟨f, hf, hkey, hchunked⟩)
  · exact absurd k.count_le (not_le.mpr hcount)
  · exact absurd (k.framing_once key hkey) (not_le.mpr honce)
  · exact k.framed.exclusive ⟨hlen, h⟩
  · exact k.framed.not_chunked f hf hkey hchunked

/-- The scanner gets stuck on header lines that it does not take or cannot frame. -/
theorem headers_fail {k : Head} {fs : List FieldLine} (w : Bytes)
    (h : ¬ (k.Takes fs ∧ ∃ n, bodyLength (k.withFields fs).headers = some n)) :
    ∃ g u, scanner.Silent (.headers k) (fieldBytes fs ++ crlf ++ w) g u ∧ g.step u = .fail := by
  induction fs generalizing k with
  | nil =>
    refine ⟨_, _, .refl _ _, Progress.step_of_readLine_eq_none (Progress.inHead_headers k)
      (cut_crlf (l := []) w (by decide)) ?_⟩
    simp only [Head.Takes, true_and, not_exists] at h
    have hnone : bodyLength k.headers = none := Option.eq_none_iff_forall_ne_some.mpr h
    simp [Progress.readLine, hnone]
  | cons f fs ih =>
    by_cases hadmits : k.Admits f.key
    · rw [Head.withFields_cons, Head.Takes, and_iff_right hadmits] at h
      obtain ⟨g, u, hsil, hfail⟩ := ih h
      rw [fieldBytes_cons_append]
      exact ⟨g, u, .step (step_field hadmits _) hsil, hfail⟩
    · refine ⟨_, _, .refl _ _, Progress.step_of_readLine_eq_none (Progress.inHead_headers k)
        (cut_fieldBytes f fs w) ?_⟩
      have hadd : k.addLine f.toBytes = none := by
        rw [Option.eq_none_iff_forall_ne_some]
        intro k' hk'
        obtain ⟨f', hf', hadmits', -⟩ :=
          (Head.addLine_eq_some_iff k k' f.not_crlf_infix_toBytes).mp hk'
        exact hadmits (FieldLine.toBytes_inj hf' ▸ hadmits')
      simp [Progress.readLine, f.toBytes_ne_nil, hadd]

/-- A head that is refused is an error. -/
theorem HttpParser.OnTrack.error_of_refused {p : HttpParser} (hp : p.OnTrack) {l : RequestLine}
    {fs : List FieldLine} {w : Bytes} (hheads : Heads l fs w p.buffer) (hcoding : DeclaresCoding fs)
    (hrefused : Refused fs) (out : HttpRequest) : (p.parse out).1 = .Error := by
  have hnot : ¬ ((Head.ofRequestLine l).Takes fs ∧
      ∃ n, bodyLength ((Head.ofRequestLine l).withFields fs).headers = some n) := by
    rintro ⟨htakes, n, hn⟩
    have hsil : scanner.Silent .requestLine (l.toBytes ++ crlf ++ fieldBytes fs ++ crlf ++ w)
        (.body ((Head.ofRequestLine l).withFields fs) n) w :=
      (silent_iff _ n _ w).mpr ⟨l, fs, rfl, htakes, rfl, hn⟩
    obtain ⟨k, hk, -⟩ := RequestHead.exists_of_silent hsil
    have hfields : fs = k.fields := by
      have hcut := cut_heads l fs w
      rw [hk, RequestHead.toBytes, cut_heads] at hcut
      exact (fieldBytes_inj (Prod.mk.inj (Option.some.inj hcut)).2.symm).1
    exact not_refused_fields k (hfields ▸ hcoding) (hfields ▸ hrefused)
  obtain ⟨g, u, hsil, hfail⟩ := headers_fail w hnot
  have hline : Progress.requestLine.step p.buffer
      = .next (.headers (Head.ofRequestLine l)) (fieldBytes fs ++ crlf ++ w) none := by
    rw [hheads, List.append_assoc (l.toBytes ++ crlf), List.append_assoc (l.toBytes ++ crlf)]
    exact step_requestLine l _
  have hend := (hp.matches_parse out).at_end (.step hline hsil) (by simp [hfail])
  revert hend
  rcases p.parse out with ⟨_ | _ | _, q, r⟩
  · simp [EndsAs, hfail]
  · simp [EndsAs, hfail]
  · exact fun _ => rfl

/-- A head that is not refused, and announces no body, is a request. -/
theorem HttpParser.OnTrack.complete_of_not_refused {p : HttpParser} (hp : p.OnTrack) {l : RequestLine}
    {fs : List FieldLine} {w : Bytes} (hheads : Heads l fs w p.buffer) (hnot : ¬ Refused fs) (out : HttpRequest) :
    (p.parse out).1 = .Complete := by
  obtain ⟨k, rfl, rfl, hlen⟩ := exists_head_of_not_refused (l := l) hnot
  have hbegins : Begins k w (p.buffer ++ []) := by
    refine ⟨by simp [hlen], [], by simp [hlen], ?_⟩
    rw [List.append_nil, List.append_nil, hheads, RequestHead.toBytes]
  have hlong : k.toBytes.length ≤ p.buffer.length := by
    rw [hheads, RequestHead.toBytes]
    simp
  rcases hp.status hbegins out with ⟨-, htrips⟩ | ⟨-, -, hshort⟩ | ⟨hstatus, -⟩
  · exact absurd htrips.lt (not_lt.mpr hlong)
  · omega
  · exact hstatus

/-- A parser that refuses a line for good has a reason to refuse the head. -/
theorem HttpParser.Refusing.refused {p : HttpParser} (hp : p.Refusing) {l : RequestLine} {fs : List FieldLine}
    {w : Bytes} (hheads : Heads l fs w p.buffer) : Refused fs := by
  by_contra hnot
  obtain ⟨k, rfl, rfl, hlen⟩ := exists_head_of_not_refused (l := l) hnot
  obtain ⟨-, g, u, line, rest, hsil, hg, hcut, hread⟩ := hp
  have hbody : scanner.Silent .requestLine p.buffer (.body k.head 0) w := by
    have := k.silent (w := w) (by simp [hlen])
    rw [hlen] at this
    rwa [hheads]
  have hfail : g.step u = .fail := Progress.step_of_readLine_eq_none hg hcut hread
  obtain ⟨rfl, rfl⟩ := hbody.unique hsil (by simp [scanner_step, Progress.step])
    (by simp [scanner_step, hfail])
  exact hg.elim

/-- **When declared codings are refused.** Let a stream arrive in chunks, and `parse` be called on it, also again
after an error. The call completes no request that declares a coding, and fails on every head that does, or has
failed on it before, if and only if the parser has a reason to refuse the head that the buffer begins with if it
declares one. -/
theorem codings_refused_iff (chunks : List Bytes) (failed : Bool) (q : HttpParser) (ds : List Bytes)
    (hcalls : Calls failed {} chunks q ds) :
    ((∀ q' r, q.parse {} = (.Complete, q', r) → bytes "transfer-encoding" ∉ r.headers) ∧
      ∀ l fs w, Heads l fs w q.buffer → DeclaresCoding fs →
        (q.parse {}).1 = .Error ∨ failed = true ∧ (q.parse {}).1 = .Incomplete) ↔
    ∀ l fs w, Heads l fs w q.buffer → DeclaresCoding fs → Refused fs := by
  rcases hcalls.starts (onTrack_start []) with ⟨htrack, -⟩ | ⟨rfl, hrefusing⟩
  · constructor
    · rintro ⟨-, herror⟩ l fs w hheads hcoding
      by_contra hnot
      have hcomplete := htrack.complete_of_not_refused hheads hnot {}
      rcases herror _ _ _ hheads hcoding with hstatus | ⟨-, hstatus⟩
      · simp [hcomplete] at hstatus
      · simp [hcomplete] at hstatus
    · intro hrefused
      refine ⟨fun q' r hparse hmem => ?_, fun l fs w hheads hcoding => .inl ?_⟩
      · obtain ⟨r', ⟨k, body, -, -, hbuffer, rfl⟩, rfl⟩ := htrack.accepts hparse
        have hcoding : DeclaresCoding k.fields := (mem_insertFields_iff _ _).mp hmem
        refine not_refused_fields k hcoding (hrefused k.line k.fields (body ++ q'.buffer) ?_ hcoding)
        rw [Heads, hbuffer, RequestHead.toBytes, List.append_assoc]
      · exact htrack.error_of_refused hheads hcoding (hrefused l fs w hheads hcoding) {}
  · -- both sides hold: the head has been refused
    obtain ⟨hstatus, -⟩ := hrefusing.parse {}
    refine iff_of_true ⟨fun q' r hparse => absurd (congrArg Prod.fst hparse) hstatus, fun _ _ _ _ _ => ?_⟩
      fun l fs w hheads _ => hrefusing.refused hheads
    revert hstatus
    rcases q.parse {} with ⟨_ | _ | _, -⟩
    · exact fun _ => .inr ⟨rfl, rfl⟩
    · exact fun h => absurd rfl h
    · exact fun _ => .inl rfl

/-- A message that declares a coding, with a body that looks like a request. -/
def codedMessage : Bytes :=
  bytes "POST / HTTP/1.1\r\nTransfer-Encoding: gzip\r\n\r\nGET /admin HTTP/1.1\r\n\r\n"

theorem calls_codedMessage :
    Calls false {} [codedMessage] (HttpParser.append {} codedMessage) [] := by
  have hwait : HttpParser.parse {} {} = (.Incomplete, {}, {}) := by decide
  exact .incomplete hwait (.refl _ _)

/-- **A body taken for a request.** The message is completed though it declares a coding, and the next call
completes a request out of its body. -/
theorem codedMessage_completed :
    ∃ q, Calls false {} [codedMessage] q [] ∧ (q.parse {}).1 = .Complete ∧
      bytes "transfer-encoding" ∈ (q.parse {}).2.2.headers ∧
      ((q.parse {}).2.1.parse {}).1 = .Complete ∧
      ((q.parse {}).2.1.parse {}).2.2.path = bytes "/admin" :=
  ⟨_, calls_codedMessage, by decide⟩

/-- The parser has no reason to refuse it. -/
theorem codings_refused_iff_coded :
    ¬ ∀ l fs w, Heads l fs w (HttpParser.append {} codedMessage).buffer →
      DeclaresCoding fs → Refused fs := by
  intro h
  have hall := (codings_refused_iff [codedMessage] false _ [] calls_codedMessage).mpr h
  have hparse : (HttpParser.append {} codedMessage).parse {}
      = (.Complete, ((HttpParser.append {} codedMessage).parse {}).2) :=
    Prod.ext (by decide) rfl
  exact hall.1 _ _ hparse (by decide)

end ApiGateway.Http
