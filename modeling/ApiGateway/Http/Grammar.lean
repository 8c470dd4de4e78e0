import ApiGateway.Http.Parser

/-!
# The lines of a request

The declarative side of the parser: what a request line and a header line are. A `RequestLine` or a
`FieldLine` carries the proof that it is well formed, and the parser's offset arithmetic is shown to
accept exactly the bytes of one (`analyseRequestLine_ok_iff`, `addHeader_ok_iff`).
-/

namespace ApiGateway.Http

open Str HttpParser

/-! ## Request lines -/

/-- Method, target and version, separated by single spaces. The target may contain further spaces: the
parser splits at the first and at the last space of the line. -/
structure RequestLine where
  method : Bytes
  target : Bytes
  version : Bytes
  method_ne_nil : method ≠ []
  method_chars : method.all isMethodChar = true
  target_head : target.head? = some slash
  target_clean : ∀ c ∈ target, c ∉ crlf
  version_mem : version = bytes "HTTP/1.1" ∨ version = bytes "HTTP/1.0"

namespace RequestLine

def toBytes (l : RequestLine) : Bytes := l.method ++ sp :: (l.target ++ sp :: l.version)

/-- The target up to its first question mark. -/
def path (l : RequestLine) : Bytes := l.target.takeWhile (· ≠ questionMark)

/-- What follows the target's first question mark. -/
def query (l : RequestLine) : Bytes := (l.target.dropWhile (· ≠ questionMark)).drop 1

theorem not_mem_of_isMethodChar {s : Bytes} {c : UInt8} (hs : s.all isMethodChar = true)
    (hc : isMethodChar c = false) : c ∉ s := by
  intro h
  have := List.all_eq_true.mp hs c h
  simp_all

theorem sp_not_mem_method (l : RequestLine) : sp ∉ l.method :=
  not_mem_of_isMethodChar l.method_chars (by decide)

theorem sp_not_mem_version (l : RequestLine) : sp ∉ l.version := by
  rcases l.version_mem with h | h <;> rw [h] <;> decide

/-- A request line has no carriage return anywhere. -/
theorem cr_not_mem_toBytes (l : RequestLine) : cr ∉ l.toBytes := by
  have hmethod : cr ∉ l.method := not_mem_of_isMethodChar l.method_chars (by decide)
  have htarget : cr ∉ l.target := fun h => l.target_clean cr h (by decide)
  have hversion : cr ∉ l.version := by
    rcases l.version_mem with h | h <;> rw [h] <;> decide
  simp only [toBytes, List.mem_append, List.mem_cons, hmethod, htarget, hversion, false_or, or_false]
  decide

theorem not_crlf_infix_toBytes (l : RequestLine) : ¬ crlf <:+: l.toBytes :=
  fun h => l.cr_not_mem_toBytes (h.subset (by simp [crlf]))

theorem path_head (l : RequestLine) : l.path.head? = some slash := by
  have := l.target_head
  rw [path]
  cases ht : l.target with
  | nil => simp [ht] at this
  | cons c t =>
    obtain rfl : c = slash := by simpa [ht] using this
    rw [List.takeWhile_cons_of_pos (by decide)]
    rfl

end RequestLine

/-- The parser with the fields of a request line filled in. -/
def HttpParser.withLine (p : HttpParser) (l : RequestLine) : HttpParser :=
  { p with method := l.method, path := l.path, query := l.query, version := l.version }

namespace HttpParser

/-- `setTarget` splits at the first question mark; the default path is never needed. -/
theorem setTarget_eq (p : HttpParser) {target : Bytes} (h : target.head? = some slash) :
    p.setTarget target =
      { p with
        path := target.takeWhile (· ≠ questionMark)
        query := (target.dropWhile (· ≠ questionMark)).drop 1 } := by
  have hpath : target.takeWhile (· ≠ questionMark) ≠ [] := by
    cases target with
    | nil => simp at h
    | cons c t =>
      obtain rfl : c = slash := by simpa using h
      rw [List.takeWhile_cons_of_pos (by decide)]
      simp
  rw [setTarget]
  cases hq : target.findIdx? (· = questionMark) with
  | none =>
    have hall : ∀ c ∈ target, c ≠ questionMark := by
      simpa [List.findIdx?_eq_none_iff] using hq
    have htake : target.takeWhile (· ≠ questionMark) = target :=
      List.takeWhile_eq_self_iff.mpr (by simpa using hall)
    have hdrop : target.dropWhile (· ≠ questionMark) = [] :=
      List.dropWhile_eq_nil_iff.mpr (by simpa using hall)
    rw [htake] at hpath
    simp only [htake, hdrop, List.drop_nil, hpath, if_false]
  | some q =>
    obtain ⟨l, r, rfl, rfl, hmem⟩ := exists_of_findIdx?_eq hq
    rw [takeWhile_ne_append_cons r hmem] at hpath ⊢
    rw [dropWhile_ne_append_cons r hmem]
    simp [substr, hpath, ← List.drop_drop]

/-- The first and the last space of a line, when they differ, enclose the target. -/
theorem exists_of_spaces {line : Bytes} {i j : ℕ} (hi : line.findIdx? (· = sp) = some i)
    (hj : findLastIdx? (· = sp) line = some j) (hij : i ≠ j) :
    ∃ m t v, line = m ++ sp :: (t ++ sp :: v) ∧ m.length = i ∧ (m ++ sp :: t).length = j := by
  obtain ⟨m, r, hline, hm, hbefore⟩ := exists_of_findIdx?_eq hi
  obtain ⟨l, d, v, hline', hl, hd, hafter⟩ := exists_of_findLastIdx? hj
  obtain rfl : d = sp := by simpa using hd
  rw [hline] at hline'
  -- the last space is not before the first, and it is not the first, so it lies in `r`
  rcases List.append_eq_append_iff.mp hline' with ⟨as, hl', hr⟩ | ⟨bs, hm', hv⟩
  · cases as with
    | nil => simp_all
    | cons x t =>
      obtain ⟨rfl, rfl⟩ := List.cons.inj hr
      exact ⟨m, t, v, by simp [hline], hm, by rw [← hl', hl]⟩
  · cases bs with
    | nil => simp_all
    | cons x t =>
      obtain ⟨rfl, -⟩ := List.cons.inj hv
      exact absurd (by rw [hm']; simp) hbefore

/-- Cutting a line at its first and last space, the analysis is a chain of checks on the parts. -/
theorem analyseRequestLine_eq (p : HttpParser) {m t v : Bytes}
    (hi : (m ++ sp :: (t ++ sp :: v)).findIdx? (· = sp) = some m.length)
    (hj : findLastIdx? (· = sp) (m ++ sp :: (t ++ sp :: v)) = some (m ++ sp :: t).length) :
    p.analyseRequestLine (m ++ sp :: (t ++ sp :: v)) =
      if v ≠ bytes "HTTP/1.1" ∧ v ≠ bytes "HTTP/1.0" then
        ({ p with method := m, version := v }, .error .unsupportedHttpVersion)
      else if m = [] ∨ ¬ m.all isMethodChar then
        ({ p with method := m, version := v }, .error .invalidHttpMethod)
      else if t = [] ∨ t.head? ≠ some slash ∨ (t.findIdx? (· ∈ crlf)).isSome then
        ({ p with method := m, version := v }, .error .invalidRequestTarget)
      else (setTarget { p with method := m, version := v } t, .ok ()) := by
  have hne : m.length ≠ (m ++ sp :: t).length := by
    simp only [List.length_append, List.length_cons]
    omega
  have hmethod : substr (m ++ sp :: (t ++ sp :: v)) 0 m.length = m := by simp [substr]
  have hversion : (m ++ sp :: (t ++ sp :: v)).drop ((m ++ sp :: t).length + 1) = v := by
    rw [show m ++ sp :: (t ++ sp :: v) = (m ++ sp :: t) ++ sp :: v by simp,
      ← List.drop_drop, List.drop_left]
    rfl
  have htarget : substr (m ++ sp :: (t ++ sp :: v)) (m.length + 1)
      (sizeSub (m ++ sp :: t).length m.length - 1) = t := by
    have hlen : sizeSub (m ++ sp :: t).length m.length - 1 = t.length := by
      simp only [sizeSub, List.length_append, List.length_cons]
      split <;> omega
    rw [hlen, substr, ← List.drop_drop, List.drop_left]
    simp
  rw [analyseRequestLine, hi, hj]
  simp only [hne, if_false, hmethod, hversion, htarget]

/-- **The request line is accepted exactly when it is one**, and its fields are then stored. -/
theorem analyseRequestLine_ok_iff (p p' : HttpParser) (line : Bytes) :
    p.analyseRequestLine line = (p', .ok ()) ↔
      ∃ l : RequestLine, line = l.toBytes ∧ p' = p.withLine l := by
  constructor
  · intro h
    cases hi : line.findIdx? (· = sp) with
    | none => simp [analyseRequestLine, hi] at h
    | some i =>
    cases hj : findLastIdx? (· = sp) line with
    | none => simp [analyseRequestLine, hi, hj] at h
    | some j =>
    by_cases hij : i = j
    · simp [analyseRequestLine, hi, hj, hij] at h
    obtain ⟨m, t, v, rfl, rfl, rfl⟩ := exists_of_spaces hi hj hij
    rw [analyseRequestLine_eq p hi hj] at h
    split at h
    · simp at h
    split at h
    · simp at h
    split at h
    · simp at h
    rename_i hversion hmethod htarget
    simp only [not_and_or, not_not, not_or, ne_eq] at hversion hmethod htarget
    refine ⟨⟨m, t, v, hmethod.1, hmethod.2, htarget.2.1, by simpa using htarget.2.2, hversion⟩,
      rfl, ?_⟩
    rw [← (Prod.mk.inj h).1, setTarget_eq _ htarget.2.1]
    rfl
  · rintro ⟨l, rfl, rfl⟩
    have hi := findIdx?_eq_append_cons (l.target ++ sp :: l.version) l.sp_not_mem_method
    have hj := findLastIdx?_eq_append_cons (l.method ++ sp :: l.target) l.sp_not_mem_version
    rw [List.append_assoc, List.cons_append] at hj
    have htarget : l.target ≠ [] := by
      intro h
      simpa [h] using l.target_head
    have hclean : l.target.findIdx? (· ∈ crlf) = none := by
      simpa [List.findIdx?_eq_none_iff] using l.target_clean
    rw [RequestLine.toBytes, analyseRequestLine_eq p hi hj,
      if_neg (by simpa [← not_or] using l.version_mem),
      if_neg (by simp [l.method_ne_nil, l.method_chars]),
      if_neg (by simp [htarget, l.target_head, hclean]), setTarget_eq _ l.target_head]
    rfl

end HttpParser

/-! ## Header lines -/

/-- A header line is split at its first colon. What `HttpParser::trim` leaves of the two parts, the
name in lower case, has to be clean. -/
structure FieldLine where
  name : Bytes
  rest : Bytes
  colon_not_mem : colon ∉ name
  not_crlf_infix : ¬ crlf <:+: name ++ colon :: rest
  key_ne_nil : toLower (trim name) ≠ []
  key_clean : ∀ c ∈ toLower (trim name), c ∉ [sp, tab, cr, lf]
  value_clean : ∀ c ∈ trim rest, c ∉ crlf

namespace FieldLine

def toBytes (f : FieldLine) : Bytes := f.name ++ colon :: f.rest

def key (f : FieldLine) : Bytes := toLower (trim f.name)

def value (f : FieldLine) : Bytes := trim f.rest

theorem toBytes_ne_nil (f : FieldLine) : f.toBytes ≠ [] := by
  simp [toBytes]

theorem not_crlf_infix_toBytes (f : FieldLine) : ¬ crlf <:+: f.toBytes := f.not_crlf_infix

/-- A header line is determined by its bytes: the name ends at the first colon. -/
theorem toBytes_inj {f g : FieldLine} (h : f.toBytes = g.toBytes) : f = g := by
  have hname : f.name = g.name := by
    rw [← takeWhile_ne_append_cons f.rest f.colon_not_mem,
      ← takeWhile_ne_append_cons g.rest g.colon_not_mem]
    exact congrArg (List.takeWhile _) h
  have hrest : f.rest = g.rest := by
    rw [toBytes, toBytes, hname] at h
    simpa using h
  cases f
  cases g
  simp_all

end FieldLine

namespace HttpParser

/-- Whether a header may be added: at most `kMaxHeaderCount` lines, framing headers only once. -/
def Admits (p : HttpParser) (key : Bytes) : Prop :=
  p.headerCount < kMaxHeaderCount ∧ ¬ (key ∈ p.headers ∧ key ∈ framingKeys)

/-- The parser after a header line has been stored. -/
def withField (p : HttpParser) (f : FieldLine) : HttpParser :=
  { p with headerCount := p.headerCount + 1, headers := p.headers.insert f.key f.value }

/-- **A header line is accepted exactly when it is one and the parser admits it.** -/
theorem addHeader_ok_iff (p p' : HttpParser) {line : Bytes} (hline : ¬ crlf <:+: line) :
    p.addHeader line = (p', .ok ()) ↔
      ∃ f : FieldLine, line = f.toBytes ∧ p.Admits f.key ∧ p' = p.withField f := by
  constructor
  · intro h
    cases hc : line.findIdx? (· = colon) with
    | none => simp [addHeader, hc] at h
    | some i =>
    obtain ⟨name, rest, rfl, rfl, hname⟩ := exists_of_findIdx?_eq hc
    have hkey : headerKey (name ++ colon :: rest) name.length = toLower (trim name) := by
      simp [headerKey, substr]
    have hvalue : headerValue (name ++ colon :: rest) name.length = trim rest := by
      rw [headerValue, drop_length_append_cons]
    simp only [addHeader, hc, hkey, hvalue] at h
    split at h
    · simp at h
    split at h
    · simp at h
    split at h
    · simp at h
    rename_i hclean hcount hdup
    simp only [not_or, Bool.not_eq_true, Option.isSome_eq_false_iff, Option.isNone_iff_eq_none,
      List.findIdx?_eq_none_iff, decide_eq_false_iff_not] at hclean
    refine ⟨⟨name, rest, hname, hline, hclean.1, hclean.2.1, hclean.2.2⟩, rfl, ⟨by omega, hdup⟩, ?_⟩
    exact (Prod.mk.inj h).1.symm
  · rintro ⟨f, rfl, ⟨hcount, hdup⟩, rfl⟩
    have hc := findIdx?_eq_append_cons f.rest f.colon_not_mem
    have hkey : headerKey f.toBytes f.name.length = f.key := by
      simp [headerKey, substr, FieldLine.toBytes, FieldLine.key]
    have hvalue : headerValue f.toBytes f.name.length = f.value := by
      rw [headerValue, FieldLine.toBytes, drop_length_append_cons, FieldLine.value]
    have hclean : ¬ (f.key = [] ∨ (f.key.findIdx? (· ∈ [sp, tab, cr, lf])).isSome
        ∨ (f.value.findIdx? (· ∈ crlf)).isSome) := by
      simp only [not_or, Bool.not_eq_true, Option.isSome_eq_false_iff, Option.isNone_iff_eq_none,
        List.findIdx?_eq_none_iff, decide_eq_false_iff_not]
      exact ⟨f.key_ne_nil, f.key_clean, f.value_clean⟩
    rw [addHeader, show f.toBytes.findIdx? (· = colon) = some f.name.length from hc]
    simp only [hkey, hvalue]
    rw [if_neg hclean, if_neg (by omega), if_neg hdup]
    rfl

/-! ## Framing -/

/-- How many bytes of body the header section announces: none without a `Content-Length`, and no
answer where the framing headers are invalid or contradict each other. -/
def bodyLength (headers : HeaderMap) : Option ℕ :=
  match headers.lookup (bytes "content-length"), headers.lookup (bytes "transfer-encoding") with
  | none, none => some 0
  | none, some te => if mentionsChunked te then none else some 0
  | some v, none =>
    if v ≠ [] ∧ v.all isdigit = true ∧ digitsValue v ≤ kMaxBodyBytes then some (digitsValue v) else none
  | some _, some _ => none

theorem bodyLength_le {headers : HeaderMap} {n : ℕ} (h : bodyLength headers = some n) :
    n ≤ kMaxBodyBytes := by
  rw [bodyLength] at h
  split at h
  · obtain rfl : 0 = n := by simpa using h
    exact Nat.zero_le _
  · split at h
    · simp at h
    · obtain rfl : 0 = n := by simpa using h
      exact Nat.zero_le _
  · split at h
    · rename_i hv
      obtain rfl := Option.some.inj h
      exact hv.2.2
    · simp at h
  · simp at h

/-- A length that passes every check of the source is a short enough digit string. -/
theorem readContentLength_of_lookup {p : HttpParser} {v : Bytes}
    (hv : p.headers.lookup (bytes "content-length") = some v) :
    if v ≠ [] ∧ v.all isdigit = true ∧ digitsValue v ≤ kMaxBodyBytes then
      p.readContentLength = ({ p with contentLength := digitsValue v }, .ok ())
    else ∃ n e, p.readContentLength = ({ p with contentLength := n }, .error e) := by
  have hmax : kMaxBodyBytes < 2 ^ 64 := by decide
  rw [readContentLength, hv]
  split
  · rename_i hok
    have hread := (fromChars_eq_some_length_iff v (digitsValue v)).mpr
      ⟨hok.1, hok.2.1, rfl, by omega⟩
    simp only [hread]
    rw [if_neg (by simp), if_neg (by omega)]
  · rename_i hbad
    cases hread : fromChars v with
    | none => exact ⟨p.contentLength, .invalidContentLength, by simp only [hread]⟩
    | some r =>
      obtain ⟨n, stop⟩ := r
      by_cases hstop : stop = v.length
      · subst hstop
        have hdigits := (fromChars_eq_some_length_iff v n).mp hread
        have hbig : kMaxBodyBytes < n := by
          by_contra hle
          exact hbad ⟨hdigits.1, hdigits.2.1, by omega⟩
        exact ⟨n, .bodyTooLarge, by simp [hread, hbig]⟩
      · exact ⟨p.contentLength, .invalidContentLength, by simp [hread, hstop]⟩

/-- **Framing succeeds exactly when the headers announce a length.** A length left over from before
is overwritten, unless there is none to be read and none was left over. -/
theorem selectFraming_spec (p : HttpParser)
    (hcl : p.contentLength = 0 ∨ bytes "content-length" ∈ p.headers) :
    match bodyLength p.headers with
    | some n => p.selectFraming
        = ({ p with contentLength := n, chunked := false, state := .Body }, .ok ())
    | none => ∃ n c e, p.selectFraming = ({ p with contentLength := n, chunked := c }, .error e) ∧
        (n = 0 ∨ bytes "content-length" ∈ p.headers) := by
  rw [bodyLength, selectFraming]
  cases hc : p.headers.lookup (bytes "content-length") with
  | none =>
    have hzero : p.contentLength = 0 := by
      refine hcl.resolve_right fun hmem => ?_
      rw [← Finmap.lookup_isSome, hc] at hmem
      simp at hmem
    have hread : p.readContentLength = (p, .ok ()) := by rw [readContentLength, hc]
    rw [hread]
    cases ht : p.headers.lookup (bytes "transfer-encoding") with
    | none => simp [hzero, ht]
    | some te =>
      by_cases hch : mentionsChunked te
      · simp only [hch, if_true]
        exact ⟨0, true, .chunkedUnsupported, by simp [ht, hc, hch, hzero], .inl rfl⟩
      · simp only [hch]
        simp [ht, hc, hch, hzero]
  | some v =>
    have hmem : bytes "content-length" ∈ p.headers := Finmap.lookup_isSome.mp (by simp [hc])
    have hread := readContentLength_of_lookup hc
    split at hread
    · rename_i hok
      rw [hread]
      cases ht : p.headers.lookup (bytes "transfer-encoding") with
      | none =>
        simp only [if_pos hok]
        simp [ht]
      | some te =>
        exact ⟨digitsValue v, mentionsChunked te, .ambiguousRequestFraming, by simp [ht, hc],
          .inr hmem⟩
    · rename_i hbad
      obtain ⟨n, e, hread⟩ := hread
      rw [hread]
      cases ht : p.headers.lookup (bytes "transfer-encoding") with
      | none =>
        simp only [hbad, if_false]
        exact ⟨n, p.chunked, e, rfl, .inr hmem⟩
      | some te => exact ⟨n, p.chunked, e, rfl, .inr hmem⟩

end HttpParser

end ApiGateway.Http
