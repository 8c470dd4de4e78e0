import ApiGateway.Core.Exchange

/-!
# The response encoder and the response reader agree

What `HttpResponse::serialize` writes, `sendAndReceive` reads back, however the bytes are cut into reads.
The offsets the reader works with are first turned into lines (`readHead_lines`): then the header section
is a fold of `readLine` over its lines, and each line `serialize` writes has the effect it should have.
-/

namespace ApiGateway.Core

open Str Http HttpResponse

/-! ## Header sections by their lines -/

/-- Lines on the wire. -/
def lineBytes (ls : List Bytes) : Bytes := ls.flatMap (· ++ crlf)

@[simp] theorem lineBytes_nil : lineBytes [] = [] := rfl

theorem lineBytes_cons (l : Bytes) (ls : List Bytes) :
    lineBytes (l :: ls) = l ++ crlf ++ lineBytes ls := by
  rw [lineBytes, List.flatMap_cons, ← lineBytes]

theorem length_le_lineBytes (ls : List Bytes) : ls.length ≤ (lineBytes ls).length := by
  induction ls with
  | nil => simp
  | cons l ls ih =>
    rw [lineBytes_cons]
    simp only [List.length_append, List.length_cons, crlf, List.length_nil]
    omega

/-- A line with something in it, and without a carriage return. -/
def IsLine (l : Bytes) : Prop := l ≠ [] ∧ cr ∉ l

theorem unbroken_of_not_mem {s : Bytes} (h : cr ∉ s) : ¬ crlf <:+: s :=
  fun hin => h (hin.subset (by simp [crlf]))

theorem find_crlf {s : Bytes} (hs : ¬ crlf <:+: s) (rest : Bytes) :
    find (s ++ crlf ++ rest) crlf = some s.length := by
  have hcut := cut_append_of_not_infix (by decide) rest hs
  exact find_of_cut hcut

theorem find_blankLine_append {l : Bytes} (hl : cr ∉ l) (s : Bytes) :
    find (l ++ s) blankLine = (find s blankLine).map (l.length + ·) :=
  find_append_of_not_mem [lf, cr, lf] s hl

/-- A line terminator that is not followed by another one is no blank line. -/
theorem find_blankLine_lines {ls : List Bytes} (hls : ∀ l ∈ ls, IsLine l) (rest : Bytes) :
    find (crlf ++ lineBytes ls ++ crlf ++ rest) blankLine = some (lineBytes ls).length := by
  induction ls with
  | nil =>
    rw [lineBytes_nil, List.append_nil]
    exact find_prefix blankLine rest
  | cons l ls ih =>
    obtain ⟨hl, hls⟩ := List.forall_mem_cons.mp hls
    have hrest := ih hls
    obtain ⟨c, t, rfl⟩ := List.exists_cons_of_ne_nil hl.1
    have hc : cr ≠ c := fun h => hl.2 (h ▸ List.mem_cons_self)
    have hne : ¬ blankLine <+: cr :: lf :: (c :: t ++ (crlf ++ lineBytes ls ++ crlf ++ rest)) := by
      simp [blankLine, crlf, hc]
    have hne' : ¬ blankLine <+: lf :: (c :: t ++ (crlf ++ lineBytes ls ++ crlf ++ rest)) := by
      simp [blankLine, crlf, show cr ≠ lf by decide]
    have hskip : find (c :: t ++ (crlf ++ lineBytes ls ++ crlf ++ rest)) blankLine
        = some ((c :: t).length + (lineBytes ls).length) := by
      rw [find_blankLine_append hl.2, hrest]
      rfl
    have hassoc : crlf ++ lineBytes ((c :: t) :: ls) ++ crlf ++ rest
        = cr :: lf :: (c :: t ++ (crlf ++ lineBytes ls ++ crlf ++ rest)) := by
      rw [lineBytes_cons]
      simp [crlf]
    rw [hassoc, find_cons, if_neg hne, find_cons, if_neg hne', hskip, lineBytes_cons]
    simp only [Option.map_some, List.length_append, crlf, List.length_cons, List.length_nil]
    congr 1
    omega

theorem find_blankLine {s : Bytes} (hs : cr ∉ s) {ls : List Bytes} (hls : ∀ l ∈ ls, IsLine l)
    (rest : Bytes) :
    find (s ++ crlf ++ lineBytes ls ++ crlf ++ rest) blankLine
      = some (s.length + (lineBytes ls).length) := by
  have hassoc : s ++ crlf ++ lineBytes ls ++ crlf ++ rest
      = s ++ (crlf ++ lineBytes ls ++ crlf ++ rest) := by simp only [List.append_assoc]
  rw [hassoc, find_blankLine_append hs, find_blankLine_lines hls]
  rfl

/-- The loop over the header lines reads one line after the other. -/
theorem readLines_lines (maxBodyBytes : ℕ) {ls : List Bytes}
    (hls : ∀ l ∈ ls, l ≠ [] ∧ ¬ crlf <:+: l)
    (pre rest : Bytes) (h : ResponseHead) {fuel : ℕ} (hfuel : ls.length < fuel) :
    readLines maxBodyBytes (pre ++ lineBytes ls ++ crlf ++ rest)
        (pre.length + (lineBytes ls).length - 2) fuel pre.length h
      = ls.foldlM (ResponseHead.readLine maxBodyBytes) h := by
  induction ls generalizing pre h fuel with
  | nil =>
    obtain ⟨fuel, rfl⟩ := Nat.exists_eq_add_of_lt hfuel
    have hend : ¬ pre.length < pre.length + (lineBytes []).length - 2 := by simp
    rw [readLines, if_neg hend]
    rfl
  | cons l ls ih =>
    obtain ⟨hl, hls⟩ := List.forall_mem_cons.mp hls
    obtain ⟨fuel, rfl⟩ : ∃ k, fuel = k + 1 := ⟨fuel - 1, by omega⟩
    have hlen : 0 < l.length := List.length_pos_iff.mpr hl.1
    have hraw : pre ++ lineBytes (l :: ls) ++ crlf ++ rest
        = pre ++ (l ++ crlf ++ (lineBytes ls ++ crlf ++ rest)) := by
      rw [lineBytes_cons]
      simp only [List.append_assoc]
    have hcut : cut crlf ((pre ++ (l ++ crlf ++ (lineBytes ls ++ crlf ++ rest))).drop pre.length)
        = some (l, lineBytes ls ++ crlf ++ rest) := by
      rw [List.drop_left]
      exact cut_append_of_not_infix (by decide) _ hl.2
    have hend : pre.length + (lineBytes (l :: ls)).length - 2
        = pre.length + l.length + (lineBytes ls).length := by
      rw [lineBytes_cons]
      simp only [List.length_append, crlf, List.length_cons, List.length_nil]
      omega
    have hpre : (pre ++ l ++ crlf).length = pre.length + l.length + 2 := by
      simp only [List.length_append, crlf, List.length_cons, List.length_nil]
    have hlt : pre.length < pre.length + l.length + (lineBytes ls).length := by omega
    have hle : ¬ pre.length + l.length + (lineBytes ls).length < pre.length + l.length := by omega
    rw [hraw, hend, readLines, if_pos hlt, findFrom_of_cut hcut]
    simp only [hle, if_false, substr_of_cut hcut, List.foldlM_cons]
    cases hread : h.readLine maxBodyBytes l with
    | none => rfl
    | some h' =>
      -- the next round starts behind this line
      have hfuel' : ls.length < fuel := by
        rw [List.length_cons] at hfuel
        omega
      have hrec := ih hls (pre ++ l ++ crlf) h' hfuel'
      rw [hpre, show pre.length + l.length + 2 + (lineBytes ls).length - 2
        = pre.length + l.length + (lineBytes ls).length by omega] at hrec
      simp only [Option.bind_eq_bind, Option.bind_some]
      rw [← hrec]
      simp only [List.append_assoc]

/-- **The header section is read line by line.** -/
theorem readHead_lines (maxBodyBytes : ℕ) {s : Bytes} (hs : ¬ crlf <:+: s) {ls : List Bytes}
    (hls : ∀ l ∈ ls, l ≠ [] ∧ ¬ crlf <:+: l) (rest : Bytes) :
    readHead maxBodyBytes (s ++ crlf ++ lineBytes ls ++ crlf ++ rest)
        (s.length + (lineBytes ls).length)
      = (ls.foldlM (ResponseHead.readLine maxBodyBytes) {}).filter (·.gotContentLength) := by
  have hfind : find (s ++ crlf ++ lineBytes ls ++ crlf ++ rest) crlf = some s.length := by
    rw [List.append_assoc, List.append_assoc, ← List.append_assoc (lineBytes ls)]
    exact find_crlf hs _
  have hlines := length_le_lineBytes ls
  have hloop := readLines_lines maxBodyBytes hls (s ++ crlf) rest {}
    (show ls.length < s.length + (lineBytes ls).length + 1 by omega)
  have hpre : (s ++ crlf).length = s.length + 2 := by simp [crlf]
  rw [hpre, show s.length + 2 + (lineBytes ls).length - 2 = s.length + (lineBytes ls).length by omega]
    at hloop
  unfold readHead
  simp only [hfind, hloop]
  cases ls.foldlM (ResponseHead.readLine maxBodyBytes) {} with
  | none => rfl
  | some h => rfl

/-! ## Reading a message that ends with the stream -/

section Message

variable {maxBodyBytes : ℕ} {s : Bytes} {headerEnd : ℕ} {head : ResponseHead}

/-- A read does not fail on the header section, whose limit it cannot jump over. -/
theorem exists_takeHead (hfind : find s blankLine = some headerEnd)
    (hhead : readHead maxBodyBytes s headerEnd = some head) (hshort : headerEnd + 4 ≤ 24576)
    {r : Reader} (hr : r.Faithful maxBodyBytes) {chunk rest : Bytes} (hchunk : chunk.length ≤ 8192)
    (hs : s = r.raw ++ chunk ++ rest) :
    ∃ r', Reader.takeHead maxBodyBytes { r with raw := r.raw ++ chunk } = some r' := by
  unfold Reader.takeHead
  cases hold : r.headerEnd with
  | some k => exact ⟨_, rfl⟩
  | none =>
    rw [Reader.Faithful, hold] at hr
    have hlen : r.raw.length < headerEnd + 4 := by
      rw [hs, List.append_assoc] at hfind
      exact length_lt_of_find_eq_none hr hfind
    have hguard : ¬ 32768 < (r.raw ++ chunk).length := by
      rw [List.length_append]
      omega
    simp only [hguard, if_false]
    cases hnow : find (r.raw ++ chunk) blankLine with
    | none => exact ⟨_, rfl⟩
    | some k =>
      -- the blank line is where it is in the whole stream, and so is the header section
      have hk : k = headerEnd := by
        rw [hs, find_append _ hnow] at hfind
        exact Option.some.inj hfind
      subst hk
      have hsame := readHead_append maxBodyBytes hnow rest
      rw [← hs, hhead] at hsame
      simp only [← hsame]
      exact ⟨_, rfl⟩

/-- A reader that is complete has read the whole stream. -/
theorem eq_of_complete (hfind : find s blankLine = some headerEnd)
    (hhead : readHead maxBodyBytes s headerEnd = some head)
    (hend : headerEnd + 4 + head.contentLength = s.length) {r : Reader}
    (hr : r.Faithful maxBodyBytes) (hcomplete : r.complete = true) {rest : Bytes}
    (hs : s = r.raw ++ rest) : r = ⟨s, some headerEnd, head⟩ := by
  obtain ⟨k, hk, hk', -, hle⟩ := hr.exists_headerEnd hcomplete
  have hkEnd : k = headerEnd := by
    rw [hs, find_append _ hk'] at hfind
    exact Option.some.inj hfind
  subst hkEnd
  rw [Reader.Faithful, hk] at hr
  have hsame : r.head = head := by
    have := readHead_append maxBodyBytes hk' rest
    rw [← hs, hhead, hr.2] at this
    exact (Option.some.inj this).symm
  have hrest : rest = [] := by
    have hlen := congrArg List.length hs
    rw [List.length_append] at hlen
    rw [hsame] at hle
    exact List.length_eq_zero_iff.mp (by omega)
  rw [hs, hrest, List.append_nil, ← hk, ← hsame]

/-- A stream that is one message is read to its end, whatever the reads: the loop cannot stop before, and
the limit on the header section is not met as long as a read cannot jump over it. -/
theorem receive_message (hfind : find s blankLine = some headerEnd)
    (hhead : readHead maxBodyBytes s headerEnd = some head)
    (hend : headerEnd + 4 + head.contentLength = s.length) (hshort : headerEnd + 4 ≤ 24576)
    (reads : List Bytes) (hreads : ∀ chunk ∈ reads, 1 ≤ chunk.length ∧ chunk.length ≤ 8192)
    {r : Reader} (hr : r.Faithful maxBodyBytes) (hs : s = r.raw ++ reads.flatten)
    (hmore : r.raw.length < s.length) :
    receive maxBodyBytes reads r = some ⟨s, some headerEnd, head⟩ := by
  induction reads generalizing r with
  | nil =>
    simp only [List.flatten_nil, List.append_nil] at hs
    rw [hs] at hmore
    omega
  | cons chunk reads ih =>
    obtain ⟨hchunk, hreads⟩ := List.forall_mem_cons.mp hreads
    rw [List.flatten_cons, ← List.append_assoc] at hs
    have hne : chunk ≠ [] := List.length_pos_iff.mp hchunk.1
    obtain ⟨r₁, htake⟩ := exists_takeHead hfind hhead hshort hr hchunk.2 hs
    obtain ⟨hraw, hr₁⟩ := hr.takeHead chunk htake
    rw [receive, if_neg hne, htake]
    rw [← hraw] at hs
    by_cases hcomplete : r₁.complete = true
    · simp only [hcomplete, if_true, Option.some.injEq]
      exact eq_of_complete hfind hhead hend hr₁ hcomplete hs
    · simp only [hcomplete, Bool.false_eq_true, if_false]
      refine ih hreads hr₁ hs ?_
      -- a reader with the whole stream would be complete
      by_contra hle
      have hlen := congrArg List.length hs
      rw [List.length_append] at hlen
      have hrest : reads.flatten = [] := List.length_eq_zero_iff.mp (by omega)
      rw [hrest, List.append_nil] at hs
      apply hcomplete
      refine hr₁.complete_iff.mpr ⟨headerEnd + 4 + head.contentLength, ?_, ?_⟩
      · simp only [← hs, messageEnd, hfind, hhead, Option.map_some]
      · rw [← hs, hend]

end Message

/-! ## The lines of a response -/

/-- Header names that say something about the connection or the framing. -/
def reservedKeys : List Bytes :=
  [bytes "content-length", bytes "connection", bytes "transfer-encoding", bytes "keep-alive",
    bytes "proxy-connection", bytes "upgrade"]

/-- A header that goes through unchanged. -/
structure PlainHeader (h : Bytes × Bytes) : Prop where
  key_ne_nil : h.1 ≠ []
  key_lower : ∀ c ∈ h.1, isupper c = false
  key_clean : ∀ c ∈ h.1, c ≠ colon ∧ c ∉ crlf
  key_plain : h.1 ∉ reservedKeys
  value_clean : ∀ c ∈ h.2, c ∉ crlf
  value_start : ∀ c ∈ h.2.head?, isspace c = false

/-- A response that goes through unchanged. -/
structure PlainResponse (r : HttpResponse) : Prop where
  status_ge : 100 ≤ r.statusCode
  status_le : r.statusCode ≤ 599
  text_clean : ∀ c ∈ r.statusText, c ∉ crlf
  headers_plain : ∀ h ∈ r.headers, PlainHeader h

/-- How a line `name: value` is split. -/
theorem headerLine_split {name value : Bytes} (hname : colon ∉ name) (hvalue : ∀ c ∈ value.head?, isspace c = false) :
    (headerLine (name, value)).findIdx? (· = colon) = some name.length ∧
      substr (headerLine (name, value)) 0 name.length = name ∧
      ((headerLine (name, value)).drop (name.length + 1)).dropWhile isspace = value := by
  have hline : headerLine (name, value) = name ++ colon :: (sp :: value) := by
    simp only [headerLine, List.append_assoc]
    rfl
  have hskip : value.dropWhile isspace = value := by
    cases value with
    | nil => rfl
    | cons c v => exact List.dropWhile_cons_of_neg (by simp [hvalue c (by simp)])
  rw [hline]
  refine ⟨findIdx?_eq_append_cons _ hname, by simp [substr], ?_⟩
  rw [drop_length_append_cons, List.dropWhile_cons_of_pos (by decide), hskip]

theorem toLower_eq_self {s : Bytes} (h : ∀ c ∈ s, isupper c = false) : toLower s = s := by
  calc toLower s = s.map id := List.map_congr_left fun c hc => by simp [tolower, h c hc]
    _ = s := List.map_id s

/-- A plain header is added to the response's headers. -/
theorem readLine_plain (maxBodyBytes : ℕ) (head : ResponseHead) {h : Bytes × Bytes}
    (hplain : PlainHeader h) :
    head.readLine maxBodyBytes (headerLine h) = some { head with headers := head.headers ++ [h] } := by
  obtain ⟨key, value⟩ := h
  obtain ⟨hidx, hkey, hvalue⟩ := headerLine_split
    (fun hmem => (hplain.key_clean colon hmem).1 rfl) hplain.value_start
  have hlower : toLower key = key := toLower_eq_self hplain.key_lower
  have hother := hplain.key_plain
  simp only [reservedKeys, List.mem_cons, List.not_mem_nil, or_false, not_or] at hother
  unfold ResponseHead.readLine
  simp only [hidx, hkey, hvalue, hlower]
  simp [hother]

theorem readLines_plain (maxBodyBytes : ℕ) (head : ResponseHead) {hs : List (Bytes × Bytes)}
    (hplain : ∀ h ∈ hs, PlainHeader h) :
    (hs.map headerLine).foldlM (ResponseHead.readLine maxBodyBytes) head
      = some { head with headers := head.headers ++ hs } := by
  induction hs generalizing head with
  | nil => simp
  | cons h hs ih =>
    obtain ⟨hh, hhs⟩ := List.forall_mem_cons.mp hplain
    rw [List.map_cons, List.foldlM_cons, readLine_plain maxBodyBytes head hh, Option.bind_eq_bind,
      Option.bind_some, ih _ hhs]
    simp only [List.append_assoc, List.singleton_append]

/-- The length of the body is read back. -/
theorem readLine_contentLength {maxBodyBytes n : ℕ} (hn : n ≤ maxBodyBytes)
    (hmax : maxBodyBytes < 2 ^ 64) {head : ResponseHead} (hgot : head.gotContentLength = false) :
    head.readLine maxBodyBytes (headerLine (bytes "Content-Length", decimal n))
      = some { head with contentLength := n, gotContentLength := true } := by
  have hstart : ∀ c ∈ (decimal n).head?, isspace c = false := by
    intro c hc
    have hdigit := (isdigit_iff c).mp (isdigit_of_mem_decimal (List.mem_of_mem_head? hc))
    have h32 : c ≠ 32 := by
      rintro rfl
      simp at hdigit
    have h13 : ¬ c ≤ 13 := by
      rw [UInt8.le_iff_toNat_le]
      simp only [UInt8.reduceToNat]
      omega
    simp [isspace, h32, h13]
  obtain ⟨hidx, hkey, hvalue⟩ := headerLine_split (by decide : colon ∉ bytes "Content-Length") hstart
  have hlower : toLower (bytes "Content-Length") = bytes "content-length" := by decide
  have hnot : ¬ maxBodyBytes < n := by omega
  unfold ResponseHead.readLine
  simp only [hidx, hkey, hvalue, hlower, hgot, fromChars_decimal (hn.trans_lt hmax)]
  simp [hnot]

/-- The `Connection` header decides on reuse. -/
theorem readLine_connection (maxBodyBytes : ℕ) (head : ResponseHead) (keepAlive : Bool) :
    head.readLine maxBodyBytes
        (headerLine (bytes "Connection", bytes (if keepAlive then "keep-alive" else "close")))
      = some { head with reusable := keepAlive } := by
  have hsplit : ∀ value : Bytes, (∀ c ∈ value.head?, isspace c = false) →
      head.readLine maxBodyBytes (headerLine (bytes "Connection", value))
        = some { head with reusable := !isConnectionClose value } := by
    intro value hstart
    obtain ⟨hidx, hkey, hvalue⟩ := headerLine_split (by decide : colon ∉ bytes "Connection") hstart
    have hlower : toLower (bytes "Connection") = bytes "connection" := by decide
    have hcl : bytes "connection" ≠ bytes "content-length" := by decide
    have hte : bytes "connection" ≠ bytes "transfer-encoding" := by decide
    unfold ResponseHead.readLine
    simp only [hidx, hkey, hvalue, hlower, hcl, hte, if_false, if_true]
  cases keepAlive with
  | true =>
    have hopen : isConnectionClose (bytes "keep-alive") = false := by decide
    rw [if_pos rfl, hsplit _ (by decide +kernel), hopen]
    rfl
  | false =>
    have hclose : isConnectionClose (bytes "close") = true := by decide
    rw [if_neg Bool.false_ne_true, hsplit _ (by decide +kernel), hclose]
    rfl

variable {resp : HttpResponse}

/-- No plain header is spelt like the headers `serialize` adds. -/
theorem headerLines_plain (hresp : PlainResponse resp) (keepAlive : Bool) :
    resp.headerLines keepAlive = resp.headers.map headerLine ++
      [headerLine (bytes "Content-Length", decimal resp.body.length),
       headerLine (bytes "Connection", bytes (if keepAlive then "keep-alive" else "close"))] := by
  have hupper : ∀ name : Bytes, (∃ c ∈ name, isupper c = true) →
      resp.headers.any (·.1 = name) = false := by
    rintro name ⟨c, hc, hcu⟩
    rw [List.any_eq_false]
    intro h hh hname
    simp only [decide_eq_true_eq] at hname
    have := (hresp.headers_plain h hh).key_lower c (hname ▸ hc)
    simp [this] at hcu
  unfold headerLines
  rw [hupper _ ⟨67, by decide, by decide⟩, hupper _ ⟨67, by decide, by decide⟩]
  simp

/-- The header section of a plain response, read back. -/
theorem readLines_headerLines (hresp : PlainResponse resp) (keepAlive : Bool) {maxBodyBytes : ℕ}
    (hbody : resp.body.length ≤ maxBodyBytes) (hmax : maxBodyBytes < 2 ^ 64) :
    (resp.headerLines keepAlive).foldlM (ResponseHead.readLine maxBodyBytes) {}
      = some ⟨resp.body.length, true, keepAlive, resp.headers⟩ := by
  rw [headerLines_plain hresp, List.foldlM_append, readLines_plain maxBodyBytes _ hresp.headers_plain]
  simp only [Option.bind_eq_bind, Option.bind_some, List.nil_append, List.foldlM_cons,
    readLine_contentLength hbody hmax, readLine_connection, List.foldlM_nil]
  rfl

theorem isLine_headerLine {name value : Bytes} (hname : cr ∉ name) (hvalue : cr ∉ value) :
    IsLine (headerLine (name, value)) := by
  refine ⟨by simp [headerLine, bytes], ?_⟩
  simp only [headerLine, List.mem_append, not_or]
  exact ⟨⟨hname, by decide⟩, hvalue⟩

theorem isLine_of_mem_headerLines (hresp : PlainResponse resp) (keepAlive : Bool) :
    ∀ l ∈ resp.headerLines keepAlive, IsLine l := by
  intro l hl
  rw [headerLines_plain hresp, List.mem_append] at hl
  rcases hl with hl | hl
  · obtain ⟨⟨name, value⟩, hh, rfl⟩ := List.mem_map.mp hl
    have hplain := hresp.headers_plain _ hh
    exact isLine_headerLine (fun h => (hplain.key_clean cr h).2 (by decide))
      fun h => hplain.value_clean cr h (by decide)
  · simp only [List.mem_cons, List.not_mem_nil, or_false] at hl
    rcases hl with rfl | rfl
    · refine isLine_headerLine (by decide) fun h => ?_
      exact absurd (isdigit_of_mem_decimal h) (by decide)
    · cases keepAlive <;> exact isLine_headerLine (by decide) (by decide)

/-- The status line with its code in digits. -/
theorem statusLine_eq (hresp : PlainResponse resp) :
    resp.statusLine = bytes "HTTP/1.1" ++ sp :: (decimal resp.statusCode.toNat ++ sp :: resp.statusText) := by
  have hpos : ¬ resp.statusCode < 0 := by
    have := hresp.status_ge
    omega
  simp only [statusLine, decimalInt, if_neg hpos, List.append_assoc]
  rfl

theorem cr_not_mem_statusLine (hresp : PlainResponse resp) : cr ∉ resp.statusLine := by
  have hdigits : cr ∉ decimal resp.statusCode.toNat := fun h =>
    absurd (isdigit_of_mem_decimal h) (by decide)
  have htext : cr ∉ resp.statusText := fun h => hresp.text_clean cr h (by decide)
  rw [statusLine_eq hresp]
  simp only [List.mem_append, List.mem_cons, hdigits, htext, or_false, false_or]
  decide

/-- The end of `sendAndReceive` on a status line with its three parts: the two spaces are found first,
whatever follows the line. -/
theorem response_of_statusLine {version code text : Bytes} (hversion : sp ∉ version)
    (hcode : sp ∉ code) (hcr : ¬ crlf <:+: version ++ sp :: (code ++ sp :: text)) (tail : Bytes)
    (headerEnd : ℕ) (head : ResponseHead) :
    Reader.response ⟨version ++ sp :: (code ++ sp :: text) ++ crlf ++ tail, some headerEnd, head⟩
      = some
        { statusCode := atoi code, statusText := text, headers := head.headers
          body := substr (version ++ sp :: (code ++ sp :: text) ++ crlf ++ tail) (headerEnd + 4)
            head.contentLength } := by
  have hend := find_crlf hcr tail
  have hlen : (version ++ sp :: (code ++ sp :: text)).length
      = version.length + 1 + code.length + 1 + text.length := by
    simp only [List.length_append, List.length_cons]
    omega
  have hraw : version ++ sp :: (code ++ sp :: text) ++ crlf ++ tail
      = version ++ sp :: (code ++ sp :: (text ++ crlf ++ tail)) := by
    simp only [List.append_assoc, List.cons_append]
  rw [hlen, hraw] at hend
  rw [hraw]
  have hfirst : (version ++ sp :: (code ++ sp :: (text ++ crlf ++ tail))).findIdx? (· = sp)
      = some version.length := findIdx?_eq_append_cons _ hversion
  have hdrop := drop_length_append_cons version sp (code ++ sp :: (text ++ crlf ++ tail))
  have hsecond : (code ++ sp :: (text ++ crlf ++ tail)).findIdx? (· = sp) = some code.length :=
    findIdx?_eq_append_cons _ hcode
  have hcodeText : substr (version ++ sp :: (code ++ sp :: (text ++ crlf ++ tail)))
      (version.length + 1) (version.length + 1 + code.length - version.length - 1) = code := by
    rw [substr, hdrop, show version.length + 1 + code.length - version.length - 1 = code.length by omega,
      List.take_left]
  -- no subtraction wraps around, since the line ends behind its second space
  have hcount : sizeSub (sizeSub (version.length + 1 + code.length + 1 + text.length)
      (version.length + 1 + code.length)) 1 = text.length := by
    have hrest : sizeSub (version.length + 1 + code.length + 1 + text.length)
        (version.length + 1 + code.length) = text.length + 1 := by
      rw [sizeSub_of_le (by omega)]
      omega
    rw [hrest, sizeSub_of_le (by omega), Nat.add_sub_cancel]
  have htext : substr (version ++ sp :: (code ++ sp :: (text ++ crlf ++ tail)))
      (version.length + 1 + code.length + 1) text.length = text := by
    rw [substr, ← List.drop_drop, ← List.drop_drop, hdrop, List.drop_left, List.drop_one,
      List.tail_cons, List.append_assoc, List.take_left]
  unfold Reader.response
  simp only [hfirst, hend, hdrop, hsecond, hcodeText, hcount, htext]

/-- The end of `sendAndReceive` on a complete plain response. -/
theorem response_of_plain (hresp : PlainResponse resp) {tail : Bytes} {headerEnd : ℕ}
    {head : ResponseHead} (hheaders : head.headers = resp.headers)
    (hbody : substr (resp.statusLine ++ crlf ++ tail) (headerEnd + 4) head.contentLength = resp.body) :
    Reader.response ⟨resp.statusLine ++ crlf ++ tail, some headerEnd, head⟩ = some resp := by
  have hdigits : sp ∉ decimal resp.statusCode.toNat := fun h =>
    absurd (isdigit_of_mem_decimal h) (by decide)
  have hcr := cr_not_mem_statusLine hresp
  have hcode : atoi (decimal resp.statusCode.toNat) = resp.statusCode := by
    have hge := hresp.status_ge
    have hle := hresp.status_le
    rw [atoi_decimal (by omega)]
    omega
  rw [statusLine_eq hresp] at hcr hbody ⊢
  rw [response_of_statusLine (by decide) hdigits (unbroken_of_not_mem hcr), hcode, hbody, hheaders]

/-! ## The round trip -/

/-- **The response encoder and the response reader agree.** A plain response whose header section is
not too long and whose body is within the limit is read back unchanged from every fragmentation of what
`serialize` writes, and the connection is reusable exactly when it is kept alive. -/
theorem sendAndReceive_serialize (resp : HttpResponse) (hresp : PlainResponse resp) (keepAlive : Bool)
    (maxBodyBytes : ℕ) (hmax : maxBodyBytes < 2 ^ 64) (hbody : resp.body.length ≤ maxBodyBytes)
    (hhead : (resp.serializeHead keepAlive).length ≤ 24576)
    (request : Bytes) (sends : List SendResult) (hsends : sendAll sends request.length = true)
    (reads : List Bytes) (hreads : ∀ chunk ∈ reads, 1 ≤ chunk.length ∧ chunk.length ≤ 8192)
    (hflat : reads.flatten = resp.serialize keepAlive) :
    sendAndReceive request maxBodyBytes sends reads = some (resp, keepAlive) := by
  have hls := isLine_of_mem_headerLines hresp keepAlive
  have hstatus := cr_not_mem_statusLine hresp
  have hserialize : resp.serialize keepAlive = resp.statusLine ++ crlf
      ++ lineBytes (resp.headerLines keepAlive) ++ crlf ++ resp.body := rfl
  have hheadLen : (resp.serializeHead keepAlive).length
      = resp.statusLine.length + (lineBytes (resp.headerLines keepAlive)).length + 4 := by
    have hhead' : resp.serializeHead keepAlive
        = resp.statusLine ++ crlf ++ lineBytes (resp.headerLines keepAlive) ++ crlf := rfl
    rw [hhead']
    simp only [List.length_append, crlf, List.length_cons, List.length_nil]
    omega
  have hfind := find_blankLine hstatus hls resp.body
  have hread := readHead_lines maxBodyBytes (unbroken_of_not_mem hstatus)
    (fun l hl => ⟨(hls l hl).1, unbroken_of_not_mem (hls l hl).2⟩) resp.body
  rw [readLines_headerLines hresp keepAlive hbody hmax, Option.filter_some, if_pos rfl] at hread
  rw [← hserialize] at hfind hread
  have hlen : (resp.serialize keepAlive).length
      = (resp.serializeHead keepAlive).length + resp.body.length := List.length_append
  have hreceive := receive_message hfind hread (by simp only; omega) (by omega) reads
    hreads (faithful_new maxBodyBytes) (by simp [hflat]) (by simp only [List.length_nil]; omega)
  have hresponse : Reader.response ⟨resp.serialize keepAlive,
      some (resp.statusLine.length + (lineBytes (resp.headerLines keepAlive)).length),
      ⟨resp.body.length, true, keepAlive, resp.headers⟩⟩ = some resp := by
    have hassoc : resp.serialize keepAlive = resp.statusLine ++ crlf
        ++ (lineBytes (resp.headerLines keepAlive) ++ crlf ++ resp.body) := by
      rw [hserialize]
      simp only [List.append_assoc]
    rw [hassoc]
    refine response_of_plain hresp rfl ?_
    rw [← hassoc, ← hheadLen, substr, serialize, List.drop_left, List.take_length]
  unfold sendAndReceive
  rw [if_pos hsends, hreceive]
  simp only [hresponse, Option.map_some]

/-- A response with a repeated header and a body with a blank line, in reads of any size. -/
def sampleResponse : HttpResponse where
  statusCode := 404
  statusText := bytes "Not Found"
  headers := [(bytes "x-a", bytes "1: 2"), (bytes "x-a", [])]
  body := bytes "no\r\n\r\nroute"

theorem sendAndReceive_serialize_sampleResponse :
    sendAndReceive (bytes "GET") 1024 [.sent 1, .wouldBlock, .sent 2]
      ((sampleResponse.serialize false).map fun c => [c]) = some (sampleResponse, false) := by
  have hresp : PlainResponse sampleResponse := by
    refine ⟨by decide, by decide, by decide +kernel, ?_⟩
    intro h hh
    simp only [sampleResponse, List.mem_cons, List.not_mem_nil, or_false] at hh
    rcases hh with rfl | rfl
    all_goals
      constructor
      all_goals decide +kernel
  refine sendAndReceive_serialize sampleResponse hresp false 1024 (by decide) (by decide)
    (by decide) _ _ (by decide) _ ?_ ?_
  · intro chunk hchunk
    obtain ⟨c, -, rfl⟩ := List.mem_map.mp hchunk
    simp
  · simp [← List.flatMap_def]

end ApiGateway.Core
