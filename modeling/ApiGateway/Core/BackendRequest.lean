import ApiGateway.Http.Emitted

/-!
# Forwarding a request

`buildBackendRequest` writes a request for a backend: the client's headers without the hop-by-hop ones,
in the order in which the hash map happens to be iterated over, and the gateway's own. Parsed again, it
is the request that came in, with these headers changed (`buildBackendRequest_parses`). This rests on
what the parser can emit (`Reached.emitted`): nothing it lets through can split the forwarded request.

Reference: `buildBackendRequest` in `src/core/Gateway.cpp`.
-/

namespace ApiGateway.Core

open Str Http HttpParser HttpResponse

/-- Fields that are not forwarded. -/
def hopByHop : List Bytes :=
  [bytes "connection", bytes "host", bytes "keep-alive", bytes "proxy-connection", bytes "te",
    bytes "trailer", bytes "transfer-encoding", bytes "upgrade", bytes "content-length"]

/-- The header lines of the forwarded request; `order` lists the client's headers as the loop meets
them. -/
def backendHeaders (req : HttpRequest) (order : List (Σ _ : Bytes, Bytes)) (host : Bytes) :
    List (Bytes × Bytes) :=
  (bytes "Host", host)
    :: (order.filter (·.1 ∉ hopByHop)).map (fun h => (h.1, h.2))
    ++ [(bytes "X-Request-Id", req.requestId), (bytes "X-Forwarded-For", bytes "gateway"),
        (bytes "Connection", bytes "keep-alive")]
    ++ (if req.body = [] then [] else [(bytes "Content-Length", decimal req.body.length)])

/-- The request target, put together again. -/
def backendTarget (req : HttpRequest) : Bytes :=
  req.path ++ (if req.query = [] then [] else questionMark :: req.query)

def buildBackendRequest (req : HttpRequest) (order : List (Σ _ : Bytes, Bytes)) (host : Bytes) :
    Bytes :=
  req.method ++ sp :: (backendTarget req ++ sp :: bytes "HTTP/1.1") ++ crlf
    ++ (backendHeaders req order host).flatMap (headerLine · ++ crlf) ++ crlf ++ req.body

/-! ## Header lines -/

/-- A name and a value that make a header line. -/
structure WireHeader (h : Bytes × Bytes) : Prop where
  name_ne_nil : h.1 ≠ []
  name_clean : ∀ c ∈ h.1, c ∉ [sp, tab, cr, lf, colon]
  value_clean : ∀ c ∈ h.2, c ∉ crlf
  value_trimmed : Trimmed h.2

theorem WireHeader.trim_name {h : Bytes × Bytes} (hh : WireHeader h) : trim h.1 = h.1 := by
  refine trim_eq_self ⟨?_, ?_⟩ ?_
  · intro c hc hws
    exact hh.name_clean c (List.mem_of_mem_head? hc) (by simp at hws ⊢; tauto)
  · intro c hc hws
    exact hh.name_clean c (List.mem_of_mem_getLast? hc) (by simp at hws ⊢; tauto)
  · exact fun hcr => hh.name_clean cr hcr (by decide)

/-- The header line, as the parser takes it apart. -/
def WireHeader.fieldLine {h : Bytes × Bytes} (hh : WireHeader h) : FieldLine where
  name := h.1
  rest := sp :: h.2
  colon_not_mem hcolon := hh.name_clean colon hcolon (by decide)
  not_crlf_infix hcrlf := by
    have hcr : cr ∈ h.1 ++ colon :: sp :: h.2 := hcrlf.subset (by simp [crlf])
    simp only [List.mem_append, List.mem_cons] at hcr
    rcases hcr with hcr | hcr | hcr | hcr
    · exact hh.name_clean cr hcr (by decide)
    · exact absurd hcr (by decide)
    · exact absurd hcr (by decide)
    · exact hh.value_clean cr hcr (by decide)
  key_ne_nil := by
    rw [hh.trim_name]
    simpa using hh.name_ne_nil
  key_clean := by
    rw [hh.trim_name]
    intro c hc hws
    -- lower-casing makes no white space
    have hmem : c ∈ h.1 := by
      refine (mem_toLower_iff ?_ _).mp hc
      simp only [List.mem_cons, List.not_mem_nil, or_false] at hws
      rcases hws with rfl | rfl | rfl | rfl <;> decide
    exact hh.name_clean c hmem (by simp at hws ⊢; tauto)
  value_clean := by
    rw [trim_sp_cons hh.value_trimmed fun hcr => hh.value_clean cr hcr (by decide)]
    exact hh.value_clean

theorem WireHeader.toBytes_fieldLine {h : Bytes × Bytes} (hh : WireHeader h) :
    hh.fieldLine.toBytes = headerLine h := by
  simp only [FieldLine.toBytes, fieldLine, headerLine, List.append_assoc]
  rfl

theorem WireHeader.key_fieldLine {h : Bytes × Bytes} (hh : WireHeader h) :
    hh.fieldLine.key = toLower h.1 := congrArg toLower hh.trim_name

theorem WireHeader.value_fieldLine {h : Bytes × Bytes} (hh : WireHeader h) :
    hh.fieldLine.value = h.2 :=
  trim_sp_cons hh.value_trimmed fun hcr => hh.value_clean cr hcr (by decide)

/-- Header lines are read back with their names in lower case. -/
theorem exists_fieldLines {hs : List (Bytes × Bytes)} (hhs : ∀ h ∈ hs, WireHeader h) :
    ∃ fs : List FieldLine, fieldBytes fs = hs.flatMap (headerLine · ++ crlf) ∧
      fs.map (fun f => (f.key, f.value)) = hs.map fun h => (toLower h.1, h.2) := by
  induction hs with
  | nil => exact ⟨[], rfl, rfl⟩
  | cons h hs ih =>
    obtain ⟨hh, hhs⟩ := List.forall_mem_cons.mp hhs
    obtain ⟨fs, hbytes, hpairs⟩ := ih hhs
    refine ⟨hh.fieldLine :: fs, ?_, ?_⟩
    · rw [fieldBytes_cons, hbytes, hh.toBytes_fieldLine, List.flatMap_cons]
    · rw [List.map_cons, hpairs, hh.key_fieldLine, hh.value_fieldLine, List.map_cons]

/-! ## The headers that arrive -/

/-- A header map without some keys. -/
def dropKeys (m : HeaderMap) (keys : List Bytes) : HeaderMap := keys.foldl (fun m k => m.erase k) m

theorem lookup_dropKeys (m : HeaderMap) (keys : List Bytes) (key : Bytes) :
    (dropKeys m keys).lookup key = if key ∈ keys then none else m.lookup key := by
  induction keys generalizing m with
  | nil => simp [dropKeys]
  | cons k keys ih =>
    rw [dropKeys, List.foldl_cons, ← dropKeys, ih]
    by_cases hkey : key = k
    · subst hkey
      simp [Finmap.lookup_erase]
    · simp [hkey, Finmap.lookup_erase_ne hkey]

/-- What the backend is to see: the client's headers without the hop-by-hop ones, overridden by the
gateway's. -/
def forwardedHeaders (req : HttpRequest) (host : Bytes) : HeaderMap :=
  let own := ((((dropKeys req.headers hopByHop).insert (bytes "host") host).insert
    (bytes "x-request-id") req.requestId).insert (bytes "x-forwarded-for") (bytes "gateway")).insert
    (bytes "connection") (bytes "keep-alive")
  if req.body = [] then own else own.insert (bytes "content-length") (decimal req.body.length)

/-- The client's headers that are forwarded, in order. -/
def keptHeaders (order : List (Σ _ : Bytes, Bytes)) : List (Bytes × Bytes) :=
  (order.filter (·.1 ∉ hopByHop)).map fun h => (h.1, h.2)

theorem not_mem_hopByHop_of_kept {order : List (Σ _ : Bytes, Bytes)} {h : Bytes × Bytes}
    (hh : h ∈ keptHeaders order) : h.1 ∉ hopByHop := by
  obtain ⟨e, he, rfl⟩ := List.mem_map.mp hh
  simpa using (List.mem_filter.mp he).2

theorem kept_iff {order : List (Σ _ : Bytes, Bytes)} {m : HeaderMap}
    (horder : (order : Multiset (Σ _ : Bytes, Bytes)) = m.entries) (key value : Bytes) :
    (key, value) ∈ keptHeaders order ↔ key ∉ hopByHop ∧ m.lookup key = some value := by
  have hmem : m.lookup key = some value ↔ (⟨key, value⟩ : Σ _ : Bytes, Bytes) ∈ order := by
    rw [← Option.mem_def, Finmap.mem_lookup_iff, ← horder, Multiset.mem_coe]
  rw [hmem]
  simp only [keptHeaders, List.mem_map, List.mem_filter, decide_eq_true_eq]
  constructor
  · rintro ⟨⟨k, v⟩, ⟨hin, hhop⟩, heq⟩
    obtain ⟨rfl, rfl⟩ := Prod.mk.inj heq
    exact ⟨hhop, hin⟩
  · exact fun ⟨hhop, hin⟩ => ⟨⟨key, value⟩, ⟨hin, hhop⟩, rfl⟩

theorem nodup_kept {order : List (Σ _ : Bytes, Bytes)} {m : HeaderMap}
    (horder : (order : Multiset (Σ _ : Bytes, Bytes)) = m.entries) :
    ((keptHeaders order).map (·.1)).Nodup := by
  have hkeys : (order.map Sigma.fst).Nodup := by
    have := m.nodupKeys
    rw [← horder, Multiset.coe_nodupKeys] at this
    exact this
  have hsub : ((keptHeaders order).map (·.1)).Sublist (order.map Sigma.fst) := by
    rw [keptHeaders, List.map_map]
    exact List.filter_sublist.map _
  exact hsub.nodup hkeys

/-- The headers as they arrive, names in lower case. -/
def arrivingHeaders (req : HttpRequest) (order : List (Σ _ : Bytes, Bytes)) (host : Bytes) :
    List (Bytes × Bytes) :=
  (bytes "host", host) :: keptHeaders order
    ++ [(bytes "x-request-id", req.requestId), (bytes "x-forwarded-for", bytes "gateway"),
        (bytes "connection", bytes "keep-alive")]
    ++ (if req.body = [] then [] else [(bytes "content-length", decimal req.body.length)])

variable {req : HttpRequest} {order : List (Σ _ : Bytes, Bytes)} {host : Bytes}

theorem toLower_backendHeaders (hlower : ∀ h ∈ keptHeaders order, toLower h.1 = h.1) :
    (backendHeaders req order host).map (fun h => (toLower h.1, h.2))
      = arrivingHeaders req order host := by
  have hkept : (keptHeaders order).map (fun h => (toLower h.1, h.2)) = keptHeaders order := by
    calc (keptHeaders order).map (fun h => (toLower h.1, h.2)) = (keptHeaders order).map id :=
          List.map_congr_left fun h hh => by rw [hlower h hh]; rfl
      _ = keptHeaders order := List.map_id _
  have hnames : toLower (bytes "Host") = bytes "host" ∧
      toLower (bytes "X-Request-Id") = bytes "x-request-id" ∧
      toLower (bytes "X-Forwarded-For") = bytes "x-forwarded-for" ∧
      toLower (bytes "Connection") = bytes "connection" ∧
      toLower (bytes "Content-Length") = bytes "content-length" := by decide
  unfold backendHeaders arrivingHeaders
  rw [← keptHeaders]
  by_cases hbody : req.body = []
  · simp [hbody, hkept, hnames]
  · simp [hbody, hkept, hnames]

/-- **The headers that arrive are the forwarded ones**, whatever the order. -/
theorem insertAll_arrivingHeaders
    (horder : (order : Multiset (Σ _ : Bytes, Bytes)) = req.headers.entries) :
    insertAll ∅ (arrivingHeaders req order host) = forwardedHeaders req host := by
  have hkept : insertAll (Finmap.insert (bytes "host") host ∅) (keptHeaders order)
      = (dropKeys req.headers hopByHop).insert (bytes "host") host := by
    apply Finmap.ext_lookup
    intro key
    by_cases hin : key ∈ (keptHeaders order).map (·.1)
    · obtain ⟨⟨key', value⟩, hmem, rfl⟩ := List.mem_map.mp hin
      obtain ⟨hhop, hlookup⟩ := (kept_iff horder key' value).mp hmem
      have hhost : key' ≠ bytes "host" := by
        rintro rfl
        exact hhop (by decide)
      rw [lookup_insertAll_of_mem _ hmem (List.nodup_iff_count_le_one.mp (nodup_kept horder) _),
        Finmap.lookup_insert_of_ne _ hhost, lookup_dropKeys, if_neg hhop, hlookup]
    · rw [lookup_insertAll_of_not_mem _ hin]
      by_cases hhost : key = bytes "host"
      · subst hhost
        rw [Finmap.lookup_insert, Finmap.lookup_insert]
      · rw [Finmap.lookup_insert_of_ne _ hhost, Finmap.lookup_insert_of_ne _ hhost,
          Finmap.lookup_empty, lookup_dropKeys]
        split
        · rfl
        · rename_i hhop
          -- a header that is not dropped would have been met
          cases hlookup : req.headers.lookup key with
          | none => rfl
          | some value =>
            have hmem := (kept_iff horder key value).mpr ⟨hhop, hlookup⟩
            exact absurd (List.mem_map.mpr ⟨_, hmem, rfl⟩) hin
  unfold arrivingHeaders forwardedHeaders
  rw [← hkept]
  by_cases hbody : req.body = []
  · simp only [hbody, if_true, List.append_nil]
    simp only [insertAll, List.foldl_append, List.foldl_cons, List.foldl_nil]
  · simp only [hbody, if_false]
    simp only [insertAll, List.foldl_append, List.foldl_cons, List.foldl_nil]

/-- Framing headers arrive at most once: those of the client have been dropped. -/
theorem count_arrivingHeaders_le (req : HttpRequest) (order : List (Σ _ : Bytes, Bytes)) (host : Bytes)
    {key : Bytes} (hkey : key ∈ framingKeys) :
    ((arrivingHeaders req order host).map (·.1)).count key ≤ 1 := by
  have hhop : key ∈ hopByHop := by
    simp only [framingKeys, List.mem_cons, List.not_mem_nil, or_false] at hkey
    rcases hkey with rfl | rfl | rfl <;> decide
  have hzero : ((keptHeaders order).map (·.1)).count key = 0 := by
    rw [List.count_eq_zero]
    intro hmem
    obtain ⟨h, hh, rfl⟩ := List.mem_map.mp hmem
    exact not_mem_hopByHop_of_kept hh hhop
  unfold arrivingHeaders
  simp only [List.map_append, List.map_cons, List.map_nil, List.count_append, List.count_cons, hzero]
  simp only [framingKeys, List.mem_cons, List.not_mem_nil, or_false] at hkey
  by_cases hbody : req.body = []
  · rcases hkey with rfl | rfl | rfl <;> simp only [hbody, if_true] <;> decide
  · rcases hkey with rfl | rfl | rfl <;>
      simp only [hbody, if_false, List.map_cons, List.map_nil] <;> decide

/-- Of the arriving headers only the gateway's own can concern the framing. -/
theorem mem_arrivingHeaders_framing {key value : Bytes}
    (h : (key, value) ∈ arrivingHeaders req order host) :
    key ≠ bytes "transfer-encoding" ∧
      (key = bytes "content-length" → req.body ≠ [] ∧ value = decimal req.body.length) := by
  unfold arrivingHeaders at h
  simp only [List.mem_append, List.mem_cons, List.not_mem_nil, or_false, Prod.mk.injEq] at h
  rcases h with ((⟨rfl, -⟩ | hkept) | ⟨rfl, -⟩ | ⟨rfl, -⟩ | ⟨rfl, -⟩) | hlen
  · exact ⟨by decide, fun h => absurd h (by decide)⟩
  · have hhop : key ∉ hopByHop := not_mem_hopByHop_of_kept hkept
    refine ⟨?_, ?_⟩
    · rintro rfl
      exact hhop (by decide)
    · rintro rfl
      exact absurd (by decide) hhop
  · exact ⟨by decide, fun h => absurd h (by decide)⟩
  · exact ⟨by decide, fun h => absurd h (by decide)⟩
  · exact ⟨by decide, fun h => absurd h (by decide)⟩
  · by_cases hbody : req.body = []
    · simp [hbody] at hlen
    · simp only [hbody, if_false, List.mem_singleton, Prod.mk.injEq] at hlen
      obtain ⟨rfl, rfl⟩ := hlen
      exact ⟨by decide, fun _ => ⟨hbody, rfl⟩⟩

/-- Header lines with these names and values are framed, and announce the request's body. -/
theorem framed_of_arriving {fs : List FieldLine}
    (hfs : fs.map (fun f => (f.key, f.value)) = arrivingHeaders req order host) :
    Framed fs ∧ announcedLength fs = req.body.length := by
  have hline : ∀ f ∈ fs, f.key ≠ bytes "transfer-encoding" ∧
      (f.key = bytes "content-length" → req.body ≠ [] ∧ f.value = decimal req.body.length) := by
    intro f hf
    have hmem := List.mem_map_of_mem (f := fun f : FieldLine => (f.key, f.value)) hf
    rw [hfs] at hmem
    exact mem_arrivingHeaders_framing hmem
  refine ⟨⟨?_, ?_, ?_⟩, ?_⟩
  · rintro ⟨-, hte⟩
    obtain ⟨f, hf, hkey⟩ := List.mem_map.mp hte
    exact (hline f hf).1 hkey
  · exact fun f hf hkey => absurd hkey (hline f hf).1
  · intro f hf hkey
    rw [((hline f hf).2 hkey).2]
    exact ⟨decimal_ne_nil _, fun c hc => isdigit_of_mem_decimal hc⟩
  · unfold announcedLength
    cases hlen : fieldValue fs (bytes "content-length") with
    | none =>
      have hnot := fieldValue_eq_none_iff.mp hlen
      rw [← map_fst_pairs, hfs] at hnot
      by_cases hbody : req.body = []
      · simp [hbody]
      · exact absurd (by simp [arrivingHeaders, hbody]) hnot
    | some v =>
      obtain ⟨f, hf, hkey, rfl⟩ := exists_of_fieldValue hlen
      rw [((hline f hf).2 hkey).2, Option.map_some, Option.getD_some, digitsValue_decimal]

/-! ## The forwarded request -/

/-- The digits that an output stream writes in base sixteen. -/
def isHexDigit (c : UInt8) : Bool := isdigit c || (97 ≤ c && c ≤ 102)

/-- A value without white space is clean and trimmed. -/
theorem wire_of_no_space {v : Bytes} (h : ∀ c ∈ v, c ∉ [sp, tab, cr, lf]) :
    (∀ c ∈ v, c ∉ crlf) ∧ Trimmed v := by
  have hsub : ∀ c, c ∈ crlf ∨ c ∈ [sp, tab] → c ∈ [sp, tab, cr, lf] := by
    intro c hc
    simp only [crlf, List.mem_cons, List.not_mem_nil, or_false] at hc ⊢
    tauto
  refine ⟨fun c hc hcrlf => h c hc (hsub c (.inl hcrlf)), ?_, ?_⟩
  · exact fun c hc hws => h c (List.mem_of_mem_head? hc) (hsub c (.inr hws))
  · exact fun c hc hws => h c (List.mem_of_mem_getLast? hc) (hsub c (.inr hws))

/-- `req-<hex>-<hex>`, as `RequestIdGenerator` makes request ids. -/
def IsRequestId (id : Bytes) : Prop :=
  ∃ seq suffix, seq ≠ [] ∧ suffix ≠ [] ∧ (∀ c ∈ seq ++ suffix, isHexDigit c = true) ∧
    id = bytes "req-" ++ seq ++ 45 :: suffix

theorem IsRequestId.wire {id : Bytes} (h : IsRequestId id) :
    (∀ c ∈ id, c ∉ crlf) ∧ Trimmed id := by
  obtain ⟨seq, suffix, -, hsuffix, hhex, rfl⟩ := h
  apply wire_of_no_space
  intro c hc hws
  have hnot : c ∉ bytes "req-" ∧ c ≠ 45 ∧ isHexDigit c = false := by
    simp only [List.mem_cons, List.not_mem_nil, or_false] at hws
    rcases hws with rfl | rfl | rfl | rfl <;> decide
  simp only [List.mem_append, List.mem_cons, hnot.1, hnot.2.1, false_or] at hc
  have := hhex c (List.mem_append.mpr hc)
  simp [hnot.2.2] at this

/-- The header lines of a forwarded request are header lines. -/
theorem wireHeader_of_mem {k : Head} (hk : k.Emitted) (hheaders : req.headers = k.headers)
    (hid : IsRequestId req.requestId) (hhost : trim host = host) (hclean : ∀ c ∈ host, c ∉ crlf)
    (horder : (order : Multiset (Σ _ : Bytes, Bytes)) = req.headers.entries) :
    ∀ h ∈ backendHeaders req order host, WireHeader h := by
  have hnames : ∀ name ∈ [bytes "Host", bytes "X-Request-Id", bytes "X-Forwarded-For",
      bytes "Connection", bytes "Content-Length"],
      name ≠ [] ∧ ∀ c ∈ name, c ∉ [sp, tab, cr, lf, colon] := by decide +kernel
  have hown : ∀ {name value : Bytes}, name ∈ [bytes "Host", bytes "X-Request-Id",
      bytes "X-Forwarded-For", bytes "Connection", bytes "Content-Length"] →
      (∀ c ∈ value, c ∉ crlf) ∧ Trimmed value → WireHeader (name, value) :=
    fun hname hvalue => ⟨(hnames _ hname).1, (hnames _ hname).2, hvalue.1, hvalue.2⟩
  have hdecimal := wire_of_no_space (v := decimal req.body.length) fun c hc hws => by
    have hdigit := isdigit_of_mem_decimal hc
    simp only [List.mem_cons, List.not_mem_nil, or_false] at hws
    rcases hws with rfl | rfl | rfl | rfl <;> exact absurd hdigit (by decide)
  have hgateway := wire_of_no_space (v := bytes "gateway") (by decide +kernel)
  have hkeep := wire_of_no_space (v := bytes "keep-alive") (by decide +kernel)
  intro h hh
  unfold backendHeaders at hh
  rw [← keptHeaders] at hh
  simp only [List.mem_append, List.mem_cons, List.not_mem_nil, or_false] at hh
  rcases hh with ((rfl | hkept) | rfl | rfl | rfl) | hlen
  · have htrimmed : Trimmed host := by
      rw [← hhost]
      refine trimmed_trim fun hcr => ?_
      rw [hhost] at hcr
      exact hclean cr hcr (by decide)
    exact hown (by simp) ⟨hclean, htrimmed⟩
  · obtain ⟨key, value⟩ := h
    have hlookup := ((kept_iff horder key value).mp hkept).2
    rw [hheaders] at hlookup
    have hemitted := hk.headers key value hlookup
    refine ⟨hemitted.key_ne_nil, ?_, hemitted.value_clean, hemitted.value_trimmed⟩
    intro c hc hws
    have hcolon : c ≠ colon := by
      rintro rfl
      exact hemitted.colon_not_mem hc
    refine hemitted.key_clean c hc ?_
    simpa only [List.mem_cons, List.not_mem_nil, or_false, hcolon] using hws
  · exact hown (by simp) hid.wire
  · exact hown (by simp) hgateway
  · exact hown (by simp) hkeep
  · by_cases hbody : req.body = []
    · simp [hbody] at hlen
    · simp only [hbody, if_false, List.mem_singleton] at hlen
      subst hlen
      exact hown (by simp) hdecimal

/-- The request line of a forwarded request. -/
def backendLine {k : Head} (hk : k.Emitted) (req : HttpRequest) (hmethod : req.method = k.method)
    (hpath : req.path = k.path) (hquery : req.query = k.query) : RequestLine where
  method := req.method
  target := backendTarget req
  version := bytes "HTTP/1.1"
  method_ne_nil := hmethod ▸ hk.method_ne_nil
  method_chars := hmethod ▸ hk.method_chars
  target_head := by
    have hhead : req.path.head? = some slash := hpath ▸ hk.path_head
    rw [backendTarget, List.head?_append, hhead]
    rfl
  target_clean c hc := by
    rw [backendTarget, List.mem_append] at hc
    rcases hc with hc | hc
    · exact (hk.path_clean c (hpath ▸ hc)).2
    · by_cases hq : req.query = []
      · simp [hq] at hc
      · simp only [hq, if_false, List.mem_cons] at hc
        rcases hc with rfl | hc
        · decide
        · exact hk.query_clean c (hquery ▸ hc)
  version_mem := .inl rfl

/-- Splitting the target again gives the path and the query back: a path has no question mark. -/
theorem backendLine_target {k : Head} (hk : k.Emitted) (req : HttpRequest)
    (hmethod : req.method = k.method) (hpath : req.path = k.path) (hquery : req.query = k.query) :
    (backendLine hk req hmethod hpath hquery).path = req.path ∧
      (backendLine hk req hmethod hpath hquery).query = req.query := by
  have hno : questionMark ∉ req.path := fun h => (hk.path_clean _ (hpath ▸ h)).1 rfl
  unfold RequestLine.path RequestLine.query backendLine backendTarget
  by_cases hq : req.query = []
  · have hall : ∀ c ∈ req.path, decide (c ≠ questionMark) = true := by
      intro c hc
      simp only [decide_eq_true_eq]
      rintro rfl
      exact hno hc
    simp only [hq, if_true, List.append_nil]
    refine ⟨List.takeWhile_eq_self_iff.mpr hall, ?_⟩
    rw [List.dropWhile_eq_nil_iff.mpr hall, List.drop_nil]
  · simp only [hq, if_false]
    rw [takeWhile_ne_append_cons _ hno, dropWhile_ne_append_cons _ hno]
    exact ⟨rfl, rfl⟩

/-- The head of the forwarded message, as the grammar has it. -/
theorem exists_backendHead {k : Head} (hk : k.Emitted) (hmethod : req.method = k.method)
    (hpath : req.path = k.path) (hquery : req.query = k.query) (hheaders : req.headers = k.headers)
    (hid : IsRequestId req.requestId) (hhost : trim host = host) (hclean : ∀ c ∈ host, c ∉ crlf)
    (horder : (order : Multiset (Σ _ : Bytes, Bytes)) = req.headers.entries)
    (hcount : (backendHeaders req order host).length ≤ kMaxHeaderCount) :
    ∃ head : RequestHead, head.line = backendLine hk req hmethod hpath hquery ∧
      head.toBytes ++ req.body = buildBackendRequest req order host ∧
      head.contentLength = req.body.length ∧ head.headers = forwardedHeaders req host := by
  obtain ⟨fs, hbytes, hpairs⟩ :=
    exists_fieldLines (wireHeader_of_mem hk hheaders hid hhost hclean horder)
  have hlength := congrArg List.length hpairs
  rw [List.length_map, List.length_map] at hlength
  -- the client's names are in lower case already
  have hlower : ∀ h ∈ keptHeaders order, toLower h.1 = h.1 := by
    intro h hh
    have hlookup := ((kept_iff horder h.1 h.2).mp hh).2
    exact (hk.headers h.1 h.2 (hheaders ▸ hlookup)).key_lower
  rw [toLower_backendHeaders hlower] at hpairs
  obtain ⟨hframed, hann⟩ := framed_of_arriving hpairs
  have honce : ∀ key ∈ framingKeys, (fs.map FieldLine.key).count key ≤ 1 := by
    intro key hkey
    rw [← map_fst_pairs, hpairs]
    exact count_arrivingHeaders_le _ _ _ hkey
  refine ⟨⟨backendLine hk req hmethod hpath hquery, fs, hlength ▸ hcount, honce, hframed⟩, rfl, ?_,
    hann, ?_⟩
  · rw [RequestHead.toBytes, hbytes]
    rfl
  · show insertFields ∅ fs = _
    rw [insertFields, hpairs]
    exact insertAll_arrivingHeaders horder

/-- **Forwarding preserves the request.** Whatever request the parser has completed, with an id of the
gateway and for any order of its headers, the message built for a backend parses again, to its last byte:
method, path, query and body are the same, and the headers are the forwarded ones. -/
theorem buildBackendRequest_parses {p q : HttpParser} (hp : Reached p) {out r : HttpRequest}
    (hparse : p.parse out = (.Complete, q, r)) {id : Bytes} (hid : IsRequestId id) {host : Bytes}
    (hhost : trim host = host) (hclean : ∀ c ∈ host, c ∉ crlf) {order : List (Σ _ : Bytes, Bytes)}
    (horder : (order : Multiset (Σ _ : Bytes, Bytes)) = r.headers.entries)
    (hcount : (backendHeaders { r with requestId := id } order host).length ≤ kMaxHeaderCount)
    (out' : HttpRequest) :
    ∃ q' r', (HttpParser.append {} (buildBackendRequest { r with requestId := id } order host)).parse
        out' = (.Complete, q', r') ∧ q'.buffer = [] ∧
      r'.method = r.method ∧ r'.path = r.path ∧ r'.query = r.query ∧ r'.body = r.body ∧
      r'.version = bytes "HTTP/1.1" ∧
      r'.headers = forwardedHeaders { r with requestId := id } host := by
  obtain ⟨k, hk, hlen, hr⟩ := hp.emitted hparse
  have hmethod : r.method = k.method := by rw [hr]; rfl
  have hpath : r.path = k.path := by rw [hr]; rfl
  have hquery : r.query = k.query := by rw [hr]; rfl
  have hheaders : r.headers = k.headers := by rw [hr]; rfl
  obtain ⟨hlinePath, hlineQuery⟩ :=
    backendLine_target hk { r with requestId := id } hmethod hpath hquery
  obtain ⟨head, hline, hbytes, hann, hforwarded⟩ :=
    @exists_backendHead { r with requestId := id } order host k hk hmethod hpath hquery hheaders hid
      hhost hclean horder hcount
  have haccepts : Accepts (buildBackendRequest { r with requestId := id } order host)
      (head.request r.body) [] := by
    refine ⟨head, r.body, hann.trans_le hlen, hann.symm, ?_, rfl⟩
    rw [List.append_nil]
    exact hbytes.symm
  refine ⟨_, _, complete_of_accepts haccepts out', rfl, ?_, ?_, ?_, rfl, ?_, hforwarded⟩
  · show head.line.method = r.method
    rw [hline]
    rfl
  · show head.line.path = r.path
    rw [hline]
    exact hlinePath
  · show head.line.query = r.query
    rw [hline]
    exact hlineQuery
  · show head.line.version = bytes "HTTP/1.1"
    rw [hline]
    rfl

/-- A request whose connection the client wants closed. -/
def closingUpload : Bytes :=
  bytes "PUT /a?b HTTP/1.0\r\nConnection: close\r\nX-Tag: 1\r\nContent-Length: 2\r\n\r\nhi"

/-- The backend's connection is kept, and it sees the tag and the body. -/
theorem buildBackendRequest_parses_closingUpload :
    ∃ r, ((HttpParser.append {} closingUpload).parse {}).1 = .Complete ∧
      ((HttpParser.append {} closingUpload).parse {}).2.2 = r ∧
      ∃ q' r', (HttpParser.append {} (buildBackendRequest { r with requestId := bytes "req-0-1f" }
          [⟨bytes "x-tag", bytes "1"⟩, ⟨bytes "connection", bytes "close"⟩,
            ⟨bytes "content-length", bytes "2"⟩] (bytes "10.0.0.7"))).parse {} = (.Complete, q', r') ∧
        q'.buffer = [] ∧ r'.method = r.method ∧ r'.path = r.path ∧ r'.query = r.query ∧
        r'.body = r.body ∧ r'.version = bytes "HTTP/1.1" ∧
        r'.headers = forwardedHeaders { r with requestId := bytes "req-0-1f" } (bytes "10.0.0.7") := by
  rcases hparse : (HttpParser.append {} closingUpload).parse {} with ⟨status, q, r⟩
  have hrun : ((HttpParser.append {} closingUpload).parse {}).1 = .Complete ∧
      (([⟨bytes "x-tag", bytes "1"⟩, ⟨bytes "connection", bytes "close"⟩,
        ⟨bytes "content-length", bytes "2"⟩] : List (Σ _ : Bytes, Bytes)) : Multiset _)
        = ((HttpParser.append {} closingUpload).parse {}).2.2.headers.entries ∧
      ((HttpParser.append {} closingUpload).parse {}).2.2.body ≠ [] := by decide
  rw [hparse] at hrun
  obtain ⟨rfl, horder, hbody⟩ := hrun
  refine ⟨r, rfl, rfl, ?_⟩
  refine buildBackendRequest_parses (.append _ .fresh) hparse
    ⟨bytes "0", bytes "1f", by decide +kernel⟩ (by decide +kernel) (by decide +kernel) horder ?_ {}
  rw [backendHeaders, if_neg hbody]
  simp only [List.length_append, List.length_cons, List.length_nil]
  decide

end ApiGateway.Core
