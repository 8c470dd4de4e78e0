import ApiGateway.Http.Resume

/-!
# What the parser accepts

`RequestHead` is the grammar of a request's head: a request line and header lines that satisfy what the
parser asks of them together. `RequestHead.toBytes` writes it down. A silent run of the scanner into a
body reads exactly the bytes of a head (`silent_iff`), a head is determined by its bytes
(`RequestHead.toBytes_append_inj`), and so `parse` on a fresh parser completes exactly the requests that
are a head and a body of the announced length.
-/

namespace ApiGateway.Http

open Str HttpParser Resumable

/-! ## Lines of the scanner -/

namespace Head

/-- The head that a request line opens. -/
def ofRequestLine (l : RequestLine) : Head :=
  ⟨l.method, l.path, l.query, l.version, ∅, 0⟩

/-- Whether a header may be added. -/
def Admits (h : Head) (key : Bytes) : Prop :=
  h.headerCount < kMaxHeaderCount ∧ ¬ (key ∈ h.headers ∧ key ∈ framingKeys)

/-- The head with one more header line. -/
def withField (h : Head) (f : FieldLine) : Head :=
  { h with headerCount := h.headerCount + 1, headers := h.headers.insert f.key f.value }

theorem ofLine_eq_some_iff (line : Bytes) (k : Head) :
    Head.ofLine line = some k ↔ ∃ l : RequestLine, line = l.toBytes ∧ k = ofRequestLine l := by
  rw [ofLine]
  constructor
  · intro h
    split at h
    · rename_i p hp
      obtain ⟨l, rfl, rfl⟩ := (analyseRequestLine_ok_iff {} p line).mp hp
      exact ⟨l, rfl, (Option.some.inj h).symm⟩
    · simp at h
  · rintro ⟨l, rfl, rfl⟩
    rw [(analyseRequestLine_ok_iff {} (withLine {} l) _).mpr ⟨l, rfl, rfl⟩]
    rfl

theorem addLine_eq_some_iff (h k : Head) {line : Bytes} (hline : ¬ crlf <:+: line) :
    h.addLine line = some k ↔
      ∃ f : FieldLine, line = f.toBytes ∧ h.Admits f.key ∧ k = h.withField f := by
  rw [addLine]
  constructor
  · intro hadd
    split at hadd
    · rename_i p hp
      obtain ⟨f, rfl, hadm, rfl⟩ := (addHeader_ok_iff h.toParser p hline).mp hp
      exact ⟨f, rfl, hadm, (Option.some.inj hadd).symm⟩
    · simp at hadd
  · rintro ⟨f, rfl, hadm, rfl⟩
    rw [(addHeader_ok_iff h.toParser (h.toParser.withField f) hline).mpr ⟨f, rfl, hadm, rfl⟩]
    rfl

end Head

/-! ## Runs of header lines -/

/-- Insert headers one after the other; a later one overwrites an earlier one. -/
def insertAll (m : HeaderMap) (hs : List (Bytes × Bytes)) : HeaderMap :=
  hs.foldl (fun m h => m.insert h.1 h.2) m

theorem lookup_insertAll_of_not_mem (m : HeaderMap) {hs : List (Bytes × Bytes)} {key : Bytes}
    (h : key ∉ hs.map (·.1)) : (insertAll m hs).lookup key = m.lookup key := by
  induction hs generalizing m with
  | nil => rfl
  | cons x hs ih =>
    simp only [List.map_cons, List.mem_cons, not_or] at h
    rw [insertAll, List.foldl_cons, ← insertAll, ih _ h.2, Finmap.lookup_insert_of_ne _ h.1]

theorem lookup_insertAll_of_mem (m : HeaderMap) {hs : List (Bytes × Bytes)} {key value : Bytes}
    (h : (key, value) ∈ hs) (honce : (hs.map (·.1)).count key ≤ 1) :
    (insertAll m hs).lookup key = some value := by
  induction hs generalizing m with
  | nil => simp at h
  | cons x hs ih =>
    rw [insertAll, List.foldl_cons, ← insertAll]
    rw [List.map_cons, List.count_cons] at honce
    rcases List.mem_cons.mp h with rfl | hmem
    · have hnot : key ∉ hs.map (·.1) := by
        rw [← List.count_eq_zero]
        simp only [beq_self_eq_true, if_true] at honce
        omega
      rw [lookup_insertAll_of_not_mem _ hnot, Finmap.lookup_insert]
    · exact ih _ hmem (by omega)

/-- The headers that the lines `fs` leave in a map. -/
def insertFields (m : HeaderMap) (fs : List FieldLine) : HeaderMap :=
  insertAll m (fs.map fun f => (f.key, f.value))

theorem insertFields_cons (m : HeaderMap) (f : FieldLine) (fs : List FieldLine) :
    insertFields m (f :: fs) = insertFields (m.insert f.key f.value) fs := rfl

theorem map_fst_pairs (fs : List FieldLine) :
    (fs.map fun f => (f.key, f.value)).map (·.1) = fs.map FieldLine.key := by
  rw [List.map_map]
  rfl

theorem lookup_insertFields_of_not_mem {key : Bytes} {fs : List FieldLine} (m : HeaderMap)
    (h : key ∉ fs.map FieldLine.key) : (insertFields m fs).lookup key = m.lookup key :=
  lookup_insertAll_of_not_mem m (by rwa [map_fst_pairs])

theorem lookup_insertFields_of_mem {f : FieldLine} {fs : List FieldLine} (m : HeaderMap)
    (h : f ∈ fs) (honce : (fs.map FieldLine.key).count f.key ≤ 1) :
    (insertFields m fs).lookup f.key = some f.value :=
  lookup_insertAll_of_mem m (List.mem_map.mpr ⟨f, h, rfl⟩) (by rwa [map_fst_pairs])

namespace Head

/-- The head after the header lines `fs`. -/
def withFields (h : Head) (fs : List FieldLine) : Head :=
  { h with headerCount := h.headerCount + fs.length, headers := insertFields h.headers fs }

theorem withFields_cons (h : Head) (f : FieldLine) (fs : List FieldLine) :
    h.withFields (f :: fs) = (h.withField f).withFields fs := by
  simp only [withFields, withField, insertFields_cons, List.length_cons]
  congr 1
  omega

/-- The header lines `fs` can be added to `h`, one after the other. -/
def Takes (h : Head) : List FieldLine → Prop
  | [] => True
  | f :: fs => h.Admits f.key ∧ (h.withField f).Takes fs

/-- Header lines can be added as long as there are not too many, and none of the framing headers comes
twice. -/
theorem takes_iff {h : Head} (hcount : h.headerCount ≤ kMaxHeaderCount) (fs : List FieldLine) :
    h.Takes fs ↔ h.headerCount + fs.length ≤ kMaxHeaderCount ∧
      ∀ key ∈ framingKeys,
        (fs.map FieldLine.key).count key + (if key ∈ h.headers then 1 else 0) ≤ 1 := by
  induction fs generalizing h with
  | nil =>
    simp only [Takes, List.length_nil, Nat.add_zero, hcount, true_and, true_iff, List.map_nil,
      List.count_nil]
    intro key _
    split <;> omega
  | cons f fs ih =>
    rw [Takes, Admits]
    constructor
    · rintro ⟨⟨hlt, hdup⟩, htakes⟩
      obtain ⟨hlen, honce⟩ := (ih (h := h.withField f) hlt).mp htakes
      refine ⟨by simp only [withField, List.length_cons] at hlen ⊢; omega, fun key hkey => ?_⟩
      have hkey' := honce key hkey
      simp only [withField, Finmap.mem_insert] at hkey'
      rw [List.map_cons, List.count_cons]
      by_cases heq : f.key = key
      · subst heq
        have hnot : f.key ∉ h.headers := fun hmem => hdup ⟨hmem, hkey⟩
        simpa [hnot] using hkey'
      · have hne : ¬ key = f.key := fun h => heq h.symm
        simpa [heq, hne] using hkey'
    · rintro ⟨hlen, honce⟩
      rw [List.length_cons] at hlen
      have hlt : h.headerCount < kMaxHeaderCount := by omega
      refine ⟨⟨hlt, fun ⟨hmem, hkey⟩ => ?_⟩, (ih (h := h.withField f) hlt).mpr ⟨?_, ?_⟩⟩
      · have := honce f.key hkey
        simp [hmem] at this
      · simp only [withField]
        omega
      · intro key hkey
        have hkey' := honce key hkey
        rw [List.map_cons, List.count_cons] at hkey'
        simp only [withField, Finmap.mem_insert]
        by_cases heq : f.key = key
        · subst heq
          by_cases hmem : f.key ∈ h.headers
          · simp [hmem] at hkey'
          · simpa [hmem] using hkey'
        · have hne : ¬ key = f.key := fun h => heq h.symm
          simpa [heq, hne] using hkey'

end Head

/-- Header lines on the wire. -/
def fieldBytes (fs : List FieldLine) : Bytes := fs.flatMap fun f => f.toBytes ++ crlf

theorem fieldBytes_cons (f : FieldLine) (fs : List FieldLine) :
    fieldBytes (f :: fs) = f.toBytes ++ crlf ++ fieldBytes fs := by
  rw [fieldBytes, List.flatMap_cons, ← fieldBytes]

theorem cut_crlf {l : Bytes} (r : Bytes) (h : ¬ crlf <:+: l) :
    cut crlf (l ++ crlf ++ r) = some (l, r) :=
  cut_append_of_not_infix (by decide) r h

/-- A body is not left silently. -/
theorem eq_of_silent_body {h : Head} {n : ℕ} {u w : Bytes} {g : Progress}
    (hsil : scanner.Silent (.body h n) u g w) : g = .body h n ∧ w = u := by
  cases hsil with
  | refl => exact ⟨rfl, rfl⟩
  | step hstep _ =>
    rw [scanner_step] at hstep
    obtain ⟨line, hg, -⟩ := Progress.step_none hstep
    exact hg.elim

theorem fieldBytes_cons_append (f : FieldLine) (fs : List FieldLine) (w : Bytes) :
    fieldBytes (f :: fs) ++ crlf ++ w = f.toBytes ++ crlf ++ (fieldBytes fs ++ crlf ++ w) := by
  rw [fieldBytes_cons, List.append_assoc (f.toBytes ++ crlf), List.append_assoc (f.toBytes ++ crlf)]

/-- The scanner reads a request line that has been written. -/
theorem step_requestLine (l : RequestLine) (w : Bytes) :
    Progress.requestLine.step (l.toBytes ++ crlf ++ w)
      = .next (.headers (Head.ofRequestLine l)) w none := by
  refine Progress.step_of_readLine Progress.inHead_requestLine (cut_crlf w l.not_crlf_infix_toBytes) ?_
  rw [Progress.readLine, (Head.ofLine_eq_some_iff _ _).mpr ⟨l, rfl, rfl⟩]
  rfl

/-- So it does a header line that is admitted. -/
theorem step_field {h : Head} {f : FieldLine} (hadm : h.Admits f.key) (w : Bytes) :
    Progress.step (.headers h) (f.toBytes ++ crlf ++ w) = .next (.headers (h.withField f)) w none := by
  refine Progress.step_of_readLine (Progress.inHead_headers h) (cut_crlf w f.not_crlf_infix_toBytes) ?_
  rw [Progress.readLine, if_neg f.toBytes_ne_nil,
    (Head.addLine_eq_some_iff h _ f.not_crlf_infix_toBytes).mpr ⟨f, rfl, hadm, rfl⟩]
  rfl

/-- The blank line ends the head, if it is framed. -/
theorem step_blank {h : Head} {n : ℕ} (hbody : bodyLength h.headers = some n) (w : Bytes) :
    Progress.step (.headers h) (crlf ++ w) = .next (.body h n) w none := by
  refine Progress.step_of_readLine (Progress.inHead_headers h) (cut_crlf (l := []) w (by decide)) ?_
  rw [Progress.readLine, if_pos rfl, hbody]
  rfl

/-- **The header section.** A silent run from the headers into the body reads header lines up to a blank
line. -/
theorem silent_headers_iff (h k : Head) (n : ℕ) (u w : Bytes) :
    scanner.Silent (.headers h) u (.body k n) w ↔
      ∃ fs, u = fieldBytes fs ++ crlf ++ w ∧ h.Takes fs ∧ k = h.withFields fs ∧
        bodyLength k.headers = some n := by
  constructor
  · intro hsil
    generalize hg : Progress.headers h = g at hsil
    generalize hg' : Progress.body k n = g' at hsil
    induction hsil generalizing h with
    | refl => simp [← hg'] at hg
    | @step g u g₁ u₁ g₂ u₂ hstep hrest ih =>
      subst hg hg'
      rw [scanner_step] at hstep
      obtain ⟨line, -, hcut, hread⟩ := Progress.step_none hstep
      rw [Progress.readLine] at hread
      split at hread
      · rename_i hline
        obtain ⟨m, hm, rfl⟩ := Option.map_eq_some_iff.mp hread
        obtain ⟨hkn, rfl⟩ := eq_of_silent_body hrest
        obtain ⟨rfl, rfl⟩ := Progress.body.inj hkn
        refine ⟨[], ?_, trivial, rfl, hm⟩
        rw [append_of_cut hcut, hline]
        rfl
      · obtain ⟨h', hadd, rfl⟩ := Option.map_eq_some_iff.mp hread
        obtain ⟨f, rfl, hadm, rfl⟩ := (Head.addLine_eq_some_iff h h' (not_infix_of_cut hcut)).mp hadd
        obtain ⟨fs, rfl, htakes, rfl, hbody⟩ := ih _ rfl rfl
        refine ⟨f :: fs, ?_, ⟨hadm, htakes⟩, (Head.withFields_cons h f fs).symm, hbody⟩
        rw [append_of_cut hcut, fieldBytes_cons]
        simp only [List.append_assoc]
  · rintro ⟨fs, rfl, htakes, rfl, hbody⟩
    induction fs generalizing h with
    | nil => exact .step (step_blank hbody w) (.refl _ _)
    | cons f fs ih =>
      obtain ⟨hadm, htakes⟩ := htakes
      rw [Head.withFields_cons] at hbody ⊢
      rw [fieldBytes_cons_append]
      exact .step (step_field hadm _) (ih _ htakes hbody)

/-- **The head.** A silent run of a parser that starts, up to the body, reads a request line and header
lines up to a blank line. -/
theorem silent_iff (k : Head) (n : ℕ) (u w : Bytes) :
    scanner.Silent .requestLine u (.body k n) w ↔
      ∃ (l : RequestLine) (fs : List FieldLine),
        u = l.toBytes ++ crlf ++ fieldBytes fs ++ crlf ++ w ∧
        (Head.ofRequestLine l).Takes fs ∧ k = (Head.ofRequestLine l).withFields fs ∧
        bodyLength k.headers = some n := by
  constructor
  · intro hsil
    cases hsil with
    | step hstep hrest =>
      rw [scanner_step] at hstep
      obtain ⟨line, -, hcut, hread⟩ := Progress.step_none hstep
      obtain ⟨h, hline, rfl⟩ := Option.map_eq_some_iff.mp hread
      obtain ⟨l, rfl, rfl⟩ := (Head.ofLine_eq_some_iff line h).mp hline
      obtain ⟨fs, rfl, hfs⟩ := (silent_headers_iff _ k n _ w).mp hrest
      refine ⟨l, fs, ?_, hfs⟩
      rw [append_of_cut hcut]
      simp only [List.append_assoc]
  · rintro ⟨l, fs, rfl, hfs⟩
    have hrest := (silent_headers_iff (Head.ofRequestLine l) k n _ w).mpr ⟨fs, rfl, hfs⟩
    rw [List.append_assoc (l.toBytes ++ crlf), List.append_assoc (l.toBytes ++ crlf)]
    exact .step (step_requestLine l _) hrest

/-! ## Framing, line by line -/

/-- Lines of one name that comes at most once agree. -/
theorem value_eq_of_once {fs : List FieldLine} {f g : FieldLine} (hf : f ∈ fs) (hg : g ∈ fs)
    (hkey : f.key = g.key) (honce : (fs.map FieldLine.key).count g.key ≤ 1) : f.value = g.value := by
  have hf' := lookup_insertFields_of_mem ∅ hf (hkey ▸ honce)
  have hg' := lookup_insertFields_of_mem ∅ hg honce
  rw [hkey, hg'] at hf'
  exact (Option.some.inj hf').symm

/-- The value of the line with a given name. -/
def fieldValue (fs : List FieldLine) (key : Bytes) : Option Bytes :=
  (fs.find? (·.key = key)).map FieldLine.value

theorem fieldValue_eq_none_iff {fs : List FieldLine} {key : Bytes} :
    fieldValue fs key = none ↔ key ∉ fs.map FieldLine.key := by
  simp only [fieldValue, Option.map_eq_none_iff, List.find?_eq_none, decide_eq_true_eq,
    List.mem_map, not_exists, not_and]

theorem exists_of_fieldValue {fs : List FieldLine} {key v : Bytes} (h : fieldValue fs key = some v) :
    ∃ f ∈ fs, f.key = key ∧ f.value = v := by
  obtain ⟨f, hf, rfl⟩ := Option.map_eq_some_iff.mp h
  exact ⟨f, List.mem_of_find?_eq_some hf, by simpa using List.find?_some hf, rfl⟩

/-- What the map holds under a name that comes at most once. -/
theorem lookup_insertFields {fs : List FieldLine} {key : Bytes}
    (honce : (fs.map FieldLine.key).count key ≤ 1) :
    (insertFields ∅ fs).lookup key = fieldValue fs key := by
  cases h : fieldValue fs key with
  | none =>
    rw [lookup_insertFields_of_not_mem ∅ (fieldValue_eq_none_iff.mp h), Finmap.lookup_empty]
  | some v =>
    obtain ⟨f, hf, rfl, rfl⟩ := exists_of_fieldValue h
    exact lookup_insertFields_of_mem ∅ hf honce

/-- A message's framing is unambiguous: a length or a transfer coding but not both, the length a number,
the coding not chunked. -/
structure Framed (fs : List FieldLine) : Prop where
  exclusive : ¬ (bytes "content-length" ∈ fs.map FieldLine.key ∧
    bytes "transfer-encoding" ∈ fs.map FieldLine.key)
  not_chunked : ∀ f ∈ fs, f.key = bytes "transfer-encoding" →
    ¬ bytes "chunked" <:+: toLower f.value
  length_digits : ∀ f ∈ fs, f.key = bytes "content-length" →
    f.value ≠ [] ∧ ∀ c ∈ f.value, isdigit c = true

/-- The announced length of the body. -/
def announcedLength (fs : List FieldLine) : ℕ :=
  ((fieldValue fs (bytes "content-length")).map digitsValue).getD 0

theorem mentionsChunked_iff (v : Bytes) :
    mentionsChunked v = true ↔ bytes "chunked" <:+: toLower v := by
  rw [mentionsChunked, ← not_iff_not, ← find_eq_none_iff]
  simp

/-- What is asked of every line of a key is asked of the value of the key, if it occurs at most once. -/
theorem forall_line_iff {fs : List FieldLine} {key : Bytes}
    (honce : (fs.map FieldLine.key).count key ≤ 1) (P : Bytes → Prop) :
    (∀ f ∈ fs, f.key = key → P f.value) ↔ ∀ v, fieldValue fs key = some v → P v := by
  constructor
  · intro h v hv
    obtain ⟨f, hf, hkey, rfl⟩ := exists_of_fieldValue hv
    exact h f hf hkey
  · intro h f hf hkey
    cases hv : fieldValue fs key with
    | none => exact absurd (List.mem_map.mpr ⟨f, hf, hkey⟩) (fieldValue_eq_none_iff.mp hv)
    | some v =>
      obtain ⟨g, hg, hgkey, rfl⟩ := exists_of_fieldValue hv
      rw [value_eq_of_once hf hg (hkey.trans hgkey.symm) (hgkey ▸ honce)]
      exact h g.value hv

theorem framed_iff {fs : List FieldLine}
    (honce : ∀ key ∈ framingKeys, (fs.map FieldLine.key).count key ≤ 1) :
    Framed fs ↔
      (fieldValue fs (bytes "content-length") = none ∨
        fieldValue fs (bytes "transfer-encoding") = none) ∧
      (∀ te, fieldValue fs (bytes "transfer-encoding") = some te → ¬ mentionsChunked te = true) ∧
      ∀ v, fieldValue fs (bytes "content-length") = some v → v ≠ [] ∧ v.all isdigit = true := by
  have hcl := honce (bytes "content-length") (by decide)
  have hte := honce (bytes "transfer-encoding") (by decide)
  rw [← forall_line_iff hte, ← forall_line_iff hcl (fun v => v ≠ [] ∧ v.all isdigit = true),
    fieldValue_eq_none_iff, fieldValue_eq_none_iff, ← not_and_or]
  simp only [mentionsChunked_iff, List.all_eq_true]
  exact ⟨fun h => ⟨h.exclusive, h.not_chunked, h.length_digits⟩, fun h => ⟨h.1, h.2.1, h.2.2⟩⟩

/-- **The parser's framing decision** on header lines without a repeated framing header. -/
theorem bodyLength_insertFields_iff {fs : List FieldLine} {n : ℕ}
    (honce : ∀ key ∈ framingKeys, (fs.map FieldLine.key).count key ≤ 1) :
    bodyLength (insertFields ∅ fs) = some n ↔
      Framed fs ∧ announcedLength fs = n ∧ n ≤ kMaxBodyBytes := by
  have hcl := honce (bytes "content-length") (by decide)
  have hte := honce (bytes "transfer-encoding") (by decide)
  rw [bodyLength, lookup_insertFields hcl, lookup_insertFields hte, announcedLength, framed_iff honce]
  -- without a content-length the announced length is 0, which is within the limit
  have hzero : ∀ m, 0 = m → m ≤ kMaxBodyBytes := fun m hm => hm ▸ Nat.zero_le _
  cases fieldValue fs (bytes "content-length") with
  | none =>
    cases fieldValue fs (bytes "transfer-encoding") with
    | none => simpa using hzero n
    | some te =>
      cases hchunked : mentionsChunked te with
      | false => simpa [hchunked] using hzero n
      | true => simp [hchunked]
  | some v =>
    cases fieldValue fs (bytes "transfer-encoding") with
    | some te => simp
    | none =>
      simp only [Option.map_some, Option.getD_some, Option.ite_none_right_eq_some, Option.some.injEq,
        reduceCtorEq, or_true, true_and, false_implies, implies_true, forall_eq']
      constructor
      · rintro ⟨⟨hne, hdigits, hle⟩, rfl⟩
        exact ⟨⟨hne, hdigits⟩, rfl, hle⟩
      · rintro ⟨⟨hne, hdigits⟩, rfl, hle⟩
        exact ⟨⟨hne, hdigits, hle⟩, rfl⟩

/-! ## The grammar -/

/-- The head of a request: a request line and at most `kMaxHeaderCount` header lines, framing headers at
most once, and an unambiguous framing. -/
structure RequestHead where
  line : RequestLine
  fields : List FieldLine
  count_le : fields.length ≤ kMaxHeaderCount
  framing_once : ∀ key ∈ framingKeys, (fields.map FieldLine.key).count key ≤ 1
  framed : Framed fields

namespace RequestHead

def toBytes (h : RequestHead) : Bytes := h.line.toBytes ++ crlf ++ fieldBytes h.fields ++ crlf

def contentLength (h : RequestHead) : ℕ := announcedLength h.fields

def headers (h : RequestHead) : HeaderMap := insertFields ∅ h.fields

/-- The request with this head and this body. -/
def request (h : RequestHead) (body : Bytes) : HttpRequest :=
  { method := h.line.method, path := h.line.path, query := h.line.query, version := h.line.version,
    headers := h.headers, body, keepAlive := keepsAlive h.line.version h.headers }

/-- The progress after the header section. -/
def head (h : RequestHead) : Head := (Head.ofRequestLine h.line).withFields h.fields

theorem takes (h : RequestHead) : (Head.ofRequestLine h.line).Takes h.fields := by
  refine (Head.takes_iff (Nat.zero_le _) _).mpr ⟨?_, fun key hkey => ?_⟩
  · simpa [Head.ofRequestLine] using h.count_le
  · rw [Head.ofRequestLine, if_neg Finmap.notMem_empty]
    exact h.framing_once key hkey

/-- The scanner reads the bytes of a head silently, into a body of the announced length. -/
theorem silent (h : RequestHead) (hle : h.contentLength ≤ kMaxBodyBytes) (w : Bytes) :
    scanner.Silent .requestLine (h.toBytes ++ w) (.body h.head h.contentLength) w :=
  (silent_iff h.head h.contentLength _ w).mpr ⟨h.line, h.fields, rfl, h.takes, rfl,
    (bodyLength_insertFields_iff h.framing_once).mpr ⟨h.framed, rfl, hle⟩⟩

/-- Whatever the scanner reads silently into a body is the bytes of a head. -/
theorem exists_of_silent {k : Head} {n : ℕ} {u w : Bytes}
    (hsil : scanner.Silent .requestLine u (.body k n) w) :
    ∃ h : RequestHead, u = h.toBytes ++ w ∧ k = h.head ∧ n = h.contentLength ∧ n ≤ kMaxBodyBytes := by
  obtain ⟨l, fs, rfl, htakes, rfl, hbody⟩ := (silent_iff k n u w).mp hsil
  obtain ⟨hcount, honce⟩ := (Head.takes_iff (Nat.zero_le _) fs).mp htakes
  have honce' : ∀ key ∈ framingKeys, (fs.map FieldLine.key).count key ≤ 1 := fun key hkey =>
    (Nat.le_add_right _ _).trans (honce key hkey)
  obtain ⟨hframed, hn, hle⟩ := (bodyLength_insertFields_iff honce').mp hbody
  refine ⟨⟨l, fs, ?_, honce', hframed⟩, rfl, rfl, hn.symm, hle⟩
  simpa [Head.ofRequestLine] using hcount

end RequestHead

theorem cut_fieldBytes (f : FieldLine) (fs : List FieldLine) (w : Bytes) :
    cut crlf (fieldBytes (f :: fs) ++ crlf ++ w) = some (f.toBytes, fieldBytes fs ++ crlf ++ w) := by
  rw [fieldBytes_cons_append]
  exact cut_crlf _ f.not_crlf_infix_toBytes

theorem cut_heads (l : RequestLine) (fs : List FieldLine) (w : Bytes) :
    cut crlf (l.toBytes ++ crlf ++ fieldBytes fs ++ crlf ++ w)
      = some (l.toBytes, fieldBytes fs ++ crlf ++ w) := by
  rw [List.append_assoc, List.append_assoc, ← List.append_assoc (fieldBytes fs)]
  exact cut_crlf _ l.not_crlf_infix_toBytes

/-- Header lines up to a blank line are determined by their bytes. -/
theorem fieldBytes_inj {fs gs : List FieldLine} {x y : Bytes}
    (h : fieldBytes fs ++ crlf ++ x = fieldBytes gs ++ crlf ++ y) : fs = gs ∧ x = y := by
  have hblank : ∀ z, cut crlf (fieldBytes [] ++ crlf ++ z) = some ([], z) := fun z =>
    cut_crlf (l := []) z (by decide)
  induction fs generalizing gs with
  | nil =>
    have hcut := hblank x
    cases gs with
    | nil => exact ⟨rfl, by simpa using h⟩
    | cons g gs =>
      rw [h, cut_fieldBytes] at hcut
      exact absurd (Prod.mk.inj (Option.some.inj hcut)).1 g.toBytes_ne_nil
  | cons f fs ih =>
    have hcut := cut_fieldBytes f fs x
    cases gs with
    | nil =>
      rw [h, hblank] at hcut
      exact absurd (Prod.mk.inj (Option.some.inj hcut)).1.symm f.toBytes_ne_nil
    | cons g gs =>
      rw [h, cut_fieldBytes] at hcut
      obtain ⟨hfg, hrest⟩ := Prod.mk.inj (Option.some.inj hcut)
      obtain ⟨rfl, rfl⟩ := ih hrest.symm
      exact ⟨by rw [FieldLine.toBytes_inj hfg], rfl⟩

/-- **The decomposition is unique**: a stream that begins with a head has one sequence of header lines,
and one rest. -/
theorem RequestHead.toBytes_append_inj {h k : RequestHead} {x y : Bytes}
    (heq : h.toBytes ++ x = k.toBytes ++ y) : h.fields = k.fields ∧ x = y := by
  have hx : cut crlf (h.toBytes ++ x) = some (h.line.toBytes, fieldBytes h.fields ++ crlf ++ x) :=
    cut_heads h.line h.fields x
  rw [heq, toBytes, cut_heads] at hx
  exact fieldBytes_inj (Prod.mk.inj (Option.some.inj hx)).2.symm

/-! ## Acceptance -/

/-- `b` is a head, a body of the announced length and `t`; `r` is the request of that head and body. -/
def Accepts (b : Bytes) (r : HttpRequest) (t : Bytes) : Prop :=
  ∃ (h : RequestHead) (body : Bytes), h.contentLength ≤ kMaxBodyBytes ∧
    body.length = h.contentLength ∧ b = h.toBytes ++ body ++ t ∧ r = h.request body

/-- A body that is there is read, and completes the request. -/
theorem body_step (k : Head) {n : ℕ} {body : Bytes} (hlen : body.length = n) (t : Bytes) :
    Progress.step (.body k n) (body ++ t) = .next .requestLine t (some (k.request body)) := by
  subst hlen
  have hlong : ¬ (body ++ t).length < body.length := by
    rw [List.length_append]
    omega
  simp only [Progress.step, hlong, if_false, List.drop_left, List.take_left]

/-- A completed call has read a head and its body, and leaves a new parser with what follows. -/
theorem Matches.accepts {b : Bytes} {out r : HttpRequest} {q : HttpParser}
    (h : Matches .requestLine b out (.Complete, q, r)) :
    q = { buffer := q.buffer } ∧
      ∃ r', Accepts b r' q.buffer ∧ r = { r' with requestId := out.requestId } := by
  obtain ⟨g, w, r', v, hsil, hstep, rfl, rfl⟩ := h
  obtain ⟨k, n, rfl, hn, rfl, -, rfl⟩ := Progress.step_some hstep
  obtain ⟨hd, hb, rfl, rfl, hle⟩ := RequestHead.exists_of_silent hsil
  refine ⟨rfl, _, ⟨hd, w.take hd.contentLength, hle, List.length_take_of_le hn, ?_, rfl⟩, rfl⟩
  rw [List.append_assoc, List.take_append_drop]
  exact hb

theorem accepts_of_complete {b : Bytes} {out r : HttpRequest} {q : HttpParser}
    (h : (HttpParser.append {} b).parse out = (.Complete, q, r)) :
    ∃ r', Accepts b r' q.buffer ∧ r = { r' with requestId := out.requestId } := by
  have hsim := parse_sim ((rep_start []).append b) out
  rw [show HttpParser.append { buffer := [] } b = HttpParser.append {} b from rfl, h] at hsim
  exact hsim.accepts.2

theorem complete_of_accepts {b t : Bytes} {r : HttpRequest} (h : Accepts b r t) (out : HttpRequest) :
    (HttpParser.append {} b).parse out
      = (.Complete, { buffer := t }, { r with requestId := out.requestId }) := by
  obtain ⟨hd, body, hle, hlen, rfl, rfl⟩ := h
  have hsil := hd.silent hle (body ++ t)
  rw [← List.append_assoc] at hsil
  have hrep := (rep_start []).append (hd.toBytes ++ body ++ t)
  exact parse_complete_of_silent hrep hsil (body_step hd.head hlen t) out

/-- **The parser accepts exactly its grammar.** A byte string appended whole to a fresh parser gives the
request `r` and leaves `t` if and only if it is the head of `r`, its body and `t`, where the length the
head announces is at most `kMaxBodyBytes`. -/
theorem parse_complete_iff (b t : Bytes) (out r : HttpRequest) :
    (∃ q, (HttpParser.append {} b).parse out = (.Complete, q, r) ∧ q.buffer = t) ↔
      ∃ (h : RequestHead) (body : Bytes), h.contentLength ≤ kMaxBodyBytes ∧
        body.length = h.contentLength ∧ b = h.toBytes ++ body ++ t ∧
        r = { h.request body with requestId := out.requestId } := by
  constructor
  · rintro ⟨q, hq, rfl⟩
    obtain ⟨r', ⟨h, body, hle, hlen, hb, rfl⟩, rfl⟩ := accepts_of_complete hq
    exact ⟨h, body, hle, hlen, hb, rfl⟩
  · rintro ⟨h, body, hle, hlen, hb, rfl⟩
    exact ⟨_, complete_of_accepts ⟨h, body, hle, hlen, hb, rfl⟩ out, rfl⟩

/-- A request with a body of eleven bytes. -/
def elevenByteBody : Bytes := bytes "PUT / HTTP/1.1\r\ncontent-length: 11\r\n\r\nhello world"

/-- A length above ten is accepted. -/
theorem complete_of_elevenByteBody :
    ∃ q r, (HttpParser.append {} elevenByteBody).parse {} = (.Complete, q, r) ∧
      ∀ (h : RequestHead) (body : Bytes), elevenByteBody = h.toBytes ++ body ++ q.buffer →
        10 < h.contentLength := by
  have hrun : ((HttpParser.append {} elevenByteBody).parse {}).1 = .Complete ∧
      ((HttpParser.append {} elevenByteBody).parse {}).2.2.body.length = 11 := by decide
  rcases hparse : (HttpParser.append {} elevenByteBody).parse {} with ⟨status, q, r⟩
  obtain ⟨rfl, hbody⟩ : status = .Complete ∧ r.body.length = 11 := by simpa only [hparse] using hrun
  refine ⟨q, r, rfl, fun h body heq => ?_⟩
  obtain ⟨r', ⟨k, body', -, hlen, hb, rfl⟩, rfl⟩ := accepts_of_complete hparse
  rw [List.append_assoc] at heq hb
  obtain ⟨hfields, -⟩ := RequestHead.toBytes_append_inj (heq.symm.trans hb)
  have hsame : h.contentLength = k.contentLength := congrArg announcedLength hfields
  have hlong : body'.length = 11 := hbody
  omega

end ApiGateway.Http
