import ApiGateway.Common.Lines
import ApiGateway.Core.RoundTrip

/-!
# What a backend's header section says

`sendAndReceive` on any stream it accepts. The stream has a first line and header lines, which do not
depend on how it is cut into reads (`Accepted`), and the header section is read as a fold over the header
lines. A line does one of four things (`readLine_cases`), so that what the variables hold at the end is
read off the list of lines: the headers of the response are the lines that are not reserved
(`foldlM_headers`), and `reusable` is what the last `Connection` line says (`foldlM_reusable`).

Two things that are not read off these lines go wrong. An earlier `Connection: close` is forgotten
(`reusable_open_iff`), and a status line that lacks its second space takes it from the lines below
(`statusLine_iff`).

Reference: `sendAndReceive` in `src/core/Gateway.cpp`.
-/

namespace ApiGateway.Core

open Str Http HttpResponse

/-! ## The lines of a stream -/

/-- The bytes before the first line terminator. -/
def firstLine (s : Bytes) : Bytes := (lines cr lf s).headD []

/-- The header lines. -/
def headerSection (s : Bytes) : List Bytes := sectionLines cr lf s

theorem blankLine_infix_lineBytes {s : Bytes} {ls : List Bytes} (h : [] ∈ ls) :
    blankLine <:+: lineBytes (s :: ls) := by
  obtain ⟨before, after, rfl⟩ := List.append_of_mem h
  rcases List.eq_nil_or_concat (s :: before) with hnil | ⟨ls', l, heq⟩
  · simp at hnil
  · have hsplit : lineBytes (s :: (before ++ [] :: after))
        = (lineBytes ls' ++ l) ++ blankLine ++ lineBytes after := by
      rw [← List.cons_append, heq]
      simp [lineBytes, blankLine]
    rw [hsplit]
    exact ⟨_, _, rfl⟩

/-- **A header section by its lines.** The first blank line ends the first empty one of the lines. -/
theorem exists_lines_of_find {raw : Bytes} {headerEnd : ℕ} (h : find raw blankLine = some headerEnd) :
    ∃ rest, raw = firstLine raw ++ crlf ++ lineBytes (headerSection raw) ++ crlf ++ rest ∧
      headerEnd = (firstLine raw).length + (lineBytes (headerSection raw)).length ∧
      ¬ crlf <:+: firstLine raw ∧ ∀ l ∈ headerSection raw, l ≠ [] ∧ ¬ crlf <:+: l := by
  obtain ⟨rest, hrest⟩ := prefix_drop_of_find h
  have hlen := add_four_le_of_find h
  have hraw : raw = raw.take headerEnd ++ crlf ++ (crlf ++ rest) := by
    conv_lhs => rw [← List.take_append_drop headerEnd raw, ← hrest, blankLine]
    simp only [List.append_assoc]
  have hlines : lines cr lf raw = lines cr lf (raw.take headerEnd) ++ [] :: lines cr lf rest := by
    conv_lhs => rw [hraw]
    rw [crlf, List.append_assoc, List.cons_append, List.cons_append, List.nil_append,
      lines_append (by decide), List.cons_append, List.cons_append, List.nil_append, lines_sep]
  -- a blank line within the first bytes would have been found first
  have hearlier : ¬ blankLine <:+: raw.take headerEnd ++ crlf := by
    intro hin
    cases hfind : find (raw.take headerEnd ++ crlf) blankLine with
    | none => exact (find_eq_none_iff _ _).mp hfind hin
    | some i =>
      have hi := find_append (crlf ++ rest) hfind
      rw [← hraw, h] at hi
      have hle := add_four_le_of_find hfind
      rw [List.length_append, List.length_take, ← Option.some.inj hi] at hle
      simp only [crlf, List.length_cons, List.length_nil] at hle
      omega
  cases hp : lines cr lf (raw.take headerEnd) with
  | nil => exact absurd hp (lines_ne_nil _)
  | cons s ls =>
    have hjoin : lineBytes (s :: ls) = raw.take headerEnd ++ crlf := by
      rw [← hp]
      exact flatMap_lines _
    have hne : ∀ l ∈ ls, l ≠ [] := by
      rintro l hl rfl
      exact hearlier (hjoin ▸ blankLine_infix_lineBytes hl)
    have hfirst : firstLine raw = s := by
      rw [firstLine, hlines, hp]
      rfl
    have hsection : headerSection raw = ls := by
      rw [headerSection, sectionLines, hlines, hp, List.cons_append, List.tail_cons,
        List.takeWhile_append_of_pos (by simpa using hne), List.takeWhile_cons_of_neg (by simp),
        List.append_nil]
    have hunbroken : ∀ l ∈ s :: ls, ¬ crlf <:+: l := fun l hl =>
      not_infix_of_mem_lines (hp ▸ hl)
    rw [lineBytes_cons] at hjoin
    rw [hfirst, hsection]
    refine ⟨rest, ?_, ?_, hunbroken s List.mem_cons_self, fun l hl =>
      ⟨hne l hl, hunbroken l (List.mem_cons_of_mem _ hl)⟩⟩
    · rw [hjoin, List.append_assoc]
      exact hraw
    · have := congrArg List.length hjoin
      simp only [List.length_append, List.length_take, crlf, List.length_cons, List.length_nil] at this
      omega

/-- More bytes behind a blank line change neither the first line nor the header lines. -/
theorem lines_stable {raw : Bytes} {headerEnd : ℕ} (h : find raw blankLine = some headerEnd) (x : Bytes) :
    firstLine (raw ++ x) = firstLine raw ∧ headerSection (raw ++ x) = headerSection raw := by
  obtain ⟨rest, hrest⟩ := prefix_drop_of_find h
  have hlines : ∀ y, lines cr lf (raw.take headerEnd ++ cr :: lf :: cr :: lf :: y)
      = lines cr lf (raw.take headerEnd) ++ [] :: lines cr lf y := by
    intro y
    rw [lines_append (by decide), lines_sep]
  have hraw : raw = raw.take headerEnd ++ cr :: lf :: cr :: lf :: rest := by
    conv_lhs => rw [← List.take_append_drop headerEnd raw, ← hrest]
    rfl
  have hmore : raw ++ x = raw.take headerEnd ++ cr :: lf :: cr :: lf :: (rest ++ x) := by
    conv_lhs => rw [hraw]
    simp
  unfold firstLine headerSection sectionLines
  rw [hmore, hlines]
  conv =>
    enter [1, 2]
    rw [hraw, hlines]
  conv =>
    enter [2, 2]
    rw [hraw, hlines]
  cases hp : lines cr lf (raw.take headerEnd) with
  | nil => exact absurd hp (lines_ne_nil _)
  | cons s ls =>
    refine ⟨rfl, ?_⟩
    simp only [List.cons_append, List.tail_cons, List.takeWhile_append]
    split <;> simp

/-! ## Accepted streams -/

/-- A stream on which `sendAndReceive` returns `true`: the reader at the end of the loop, and what it
holds in terms of the stream's lines. -/
structure Accepted (maxBodyBytes : ℕ) (reads : List Bytes) (out : HttpResponse) (reusable : Bool)
    (r : Reader) (headerEnd : ℕ) : Prop where
  received : receive maxBodyBytes reads {} = some r
  headerEnd_eq : r.headerEnd = some headerEnd
  found : find r.raw blankLine = some headerEnd
  enough : headerEnd + 4 + r.head.contentLength ≤ r.raw.length
  response : r.response = some out
  reusable_eq : r.head.reusable = reusable
  head_eq : (headerSection r.raw).foldlM (ResponseHead.readLine maxBodyBytes) {} = some r.head
  got : r.head.gotContentLength = true
  firstLine_eq : firstLine reads.flatten = firstLine r.raw
  headerSection_eq : headerSection reads.flatten = headerSection r.raw

theorem exists_accepted {request : Bytes} {maxBodyBytes : ℕ} {sends : List SendResult}
    {reads : List Bytes} {out : HttpResponse} {reusable : Bool}
    (h : sendAndReceive request maxBodyBytes sends reads = some (out, reusable)) :
    ∃ r headerEnd, Accepted maxBodyBytes reads out reusable r headerEnd := by
  unfold sendAndReceive at h
  split at h
  · split at h
    · simp at h
    · rename_i r hreceive
      obtain ⟨hr, hcomplete, k, hraw, -⟩ := receive_spec (faithful_new maxBodyBytes) hreceive
      obtain ⟨headerEnd, hend, hfind, -, hle⟩ := hr.exists_headerEnd hcomplete
      obtain ⟨out', hout, heq⟩ := Option.map_eq_some_iff.mp h
      obtain ⟨rfl, rfl⟩ := Prod.mk.inj heq
      obtain ⟨rest, hlines, hlen, hfirst, hsection⟩ := exists_lines_of_find hfind
      have hhead : readHead maxBodyBytes r.raw headerEnd = some r.head := by
        rw [Reader.Faithful, hend] at hr
        exact hr.2
      rw [hlen] at hhead
      nth_rewrite 1 [hlines] at hhead
      rw [readHead_lines maxBodyBytes hfirst hsection, Option.filter_eq_some_iff] at hhead
      have hstream : reads.flatten = r.raw ++ (reads.drop k).flatten := by
        rw [hraw, List.nil_append, ← List.flatten_append, List.take_append_drop]
      obtain ⟨hfirst', hsection'⟩ := lines_stable hfind (reads.drop k).flatten
      rw [← hstream] at hfirst' hsection'
      exact ⟨r, headerEnd, hreceive, hend, hfind, hle, hout, rfl, hhead.1, hhead.2, hfirst', hsection'⟩
  · simp at h

/-! ## What a header line does -/

/-- A header line's name as the loop compares it: in lower case, but with the white space around it. -/
def lineName (line : Bytes) : Bytes := toLower (line.takeWhile (· ≠ colon))

/-- What follows the first colon, without the white space before it. -/
def lineValue (line : Bytes) : Bytes := ((line.dropWhile (· ≠ colon)).drop 1).dropWhile isspace

/-- **The effect of a header line**: a length, a `Connection`, a line that is left out, or a header. -/
theorem readLine_cases {maxBodyBytes : ℕ} {h h' : ResponseHead} {line : Bytes}
    (hread : h.readLine maxBodyBytes line = some h') :
    colon ∈ line ∧
      ((lineName line = bytes "content-length" ∧ h.gotContentLength = false ∧
          ∃ n, fromChars (lineValue line) = some (n, (lineValue line).length) ∧
            h' = { h with contentLength := n, gotContentLength := true }) ∨
        (lineName line = bytes "connection" ∧
          h' = { h with reusable := !isConnectionClose (lineValue line) }) ∨
        (lineName line ∈ [bytes "keep-alive", bytes "proxy-connection", bytes "upgrade"] ∧ h' = h) ∨
        (lineName line ∉ reservedKeys ∧
          h' = { h with headers := h.headers ++ [(lineName line, lineValue line)] })) := by
  unfold ResponseHead.readLine at hread
  split at hread
  · simp at hread
  · rename_i c hcolon
    obtain ⟨name, value, rfl, rfl, hnot⟩ := exists_of_findIdx?_eq hcolon
    have hkey : toLower (substr (name ++ colon :: value) 0 name.length)
        = lineName (name ++ colon :: value) := by
      rw [lineName, takeWhile_ne_append_cons value hnot]
      simp [substr]
    have hvalue : ((name ++ colon :: value).drop (name.length + 1)).dropWhile isspace
        = lineValue (name ++ colon :: value) := by
      rw [lineValue, dropWhile_ne_append_cons value hnot, ← List.drop_drop, List.drop_left]
    refine ⟨by simp, ?_⟩
    simp only [hkey, hvalue] at hread
    split at hread
    · rename_i hcl
      split at hread
      · simp at hread
      · rename_i hgot
        split at hread
        · simp at hread
        · rename_i n stop hchars
          split at hread
          · simp at hread
          · rename_i hlen
            rw [not_or, not_not] at hlen
            refine .inl ⟨hcl, by simpa using hgot, n, ?_, (Option.some.inj hread).symm⟩
            rw [hchars, hlen.1]
    · split at hread
      · simp at hread
      · split at hread
        · rename_i hconn
          exact .inr (.inl ⟨hconn, (Option.some.inj hread).symm⟩)
        · split at hread
          · rename_i hcl hte hconn hother
            refine .inr (.inr (.inr ⟨?_, (Option.some.inj hread).symm⟩))
            simp only [reservedKeys, List.mem_cons, List.not_mem_nil, or_false, not_or]
            exact ⟨hcl, hconn, hte, hother⟩
          · rename_i hother
            refine .inr (.inr (.inl ⟨?_, (Option.some.inj hread).symm⟩))
            simp only [ne_eq, not_and_or, not_not] at hother
            simpa using hother

/-- The lines that become headers of the response. -/
def isKept (line : Bytes) : Bool := lineName line ∉ reservedKeys

def isConnection (line : Bytes) : Bool := lineName line = bytes "connection"

section Fold

variable {maxBodyBytes : ℕ} {ls : List Bytes} {h h' : ResponseHead}

theorem exists_readLine {l : Bytes}
    (hfold : (l :: ls).foldlM (ResponseHead.readLine maxBodyBytes) h = some h') :
    ∃ h₁, h.readLine maxBodyBytes l = some h₁ ∧
      ls.foldlM (ResponseHead.readLine maxBodyBytes) h₁ = some h' := by
  rw [List.foldlM_cons] at hfold
  exact Option.bind_eq_some_iff.mp hfold

/-- A header section without a line that makes `sendAndReceive` return `false`: every line has a colon,
and none is a `Transfer-Encoding`. -/
theorem foldlM_lines (hfold : ls.foldlM (ResponseHead.readLine maxBodyBytes) h = some h') :
    ∀ l ∈ ls, colon ∈ l ∧ lineName l ≠ bytes "transfer-encoding" := by
  induction ls generalizing h with
  | nil => simp
  | cons l ls ih =>
    obtain ⟨h₁, hread, hfold⟩ := exists_readLine hfold
    refine List.forall_mem_cons.mpr ⟨?_, ih hfold⟩
    obtain ⟨hcolon, hcase⟩ := readLine_cases hread
    refine ⟨hcolon, fun hte => ?_⟩
    rw [hte] at hcase
    rcases hcase with ⟨h, -⟩ | ⟨h, -⟩ | ⟨h, -⟩ | ⟨h, -⟩
    · exact absurd h (by decide)
    · exact absurd h (by decide)
    · exact absurd h (by decide)
    · exact h (by decide)

/-- The headers of the response. -/
theorem foldlM_headers (hfold : ls.foldlM (ResponseHead.readLine maxBodyBytes) h = some h') :
    h'.headers = h.headers ++ (ls.filter isKept).map fun l => (lineName l, lineValue l) := by
  induction ls generalizing h with
  | nil =>
    obtain rfl : h = h' := Option.some.inj hfold
    simp
  | cons l ls ih =>
    obtain ⟨h₁, hread, hfold⟩ := exists_readLine hfold
    rw [ih hfold, List.filter_cons]
    rcases (readLine_cases hread).2 with ⟨hname, -, n, -, rfl⟩ | ⟨hname, rfl⟩ | ⟨hname, rfl⟩ | ⟨hname, rfl⟩
    · rw [if_neg (by rw [isKept, hname]; decide)]
    · rw [if_neg (by rw [isKept, hname]; decide)]
    · have hkept : isKept l = false := by
        simp only [List.mem_cons, List.not_mem_nil, or_false] at hname
        rcases hname with hname | hname | hname <;> rw [isKept, hname] <;> decide
      rw [if_neg (by simp [hkept])]
    · rw [if_pos (by simpa [isKept] using hname), List.map_cons, List.append_assoc, List.singleton_append]

/-- The last `Connection` line decides whether the connection can be reused. -/
theorem foldlM_reusable (hfold : ls.foldlM (ResponseHead.readLine maxBodyBytes) h = some h') :
    h'.reusable = ((ls.filter isConnection).getLast?.map fun l => !isConnectionClose (lineValue l)).getD
      h.reusable := by
  induction ls generalizing h with
  | nil =>
    obtain rfl : h = h' := Option.some.inj hfold
    simp
  | cons l ls ih =>
    obtain ⟨h₁, hread, hfold⟩ := exists_readLine hfold
    rw [ih hfold, List.filter_cons]
    by_cases hconn : isConnection l = true
    · have hname : lineName l = bytes "connection" := by simpa [isConnection] using hconn
      have hreusable : h₁.reusable = !isConnectionClose (lineValue l) := by
        rcases (readLine_cases hread).2 with ⟨hcl, -⟩ | ⟨-, rfl⟩ | ⟨hother, -⟩ | ⟨hother, -⟩
        · exact absurd (hname ▸ hcl) (by decide)
        · rfl
        · exact absurd (hname ▸ hother) (by decide)
        · exact absurd (hname ▸ hother) (by decide)
      rw [if_pos hconn, List.getLast?_cons, hreusable]
      cases (ls.filter isConnection).getLast? <;> rfl
    · have hreusable : h₁.reusable = h.reusable := by
        rcases (readLine_cases hread).2 with ⟨-, -, n, -, rfl⟩ | ⟨hname, -⟩ | ⟨-, rfl⟩ | ⟨-, rfl⟩
        · rfl
        · exact absurd (by simpa [isConnection] using hname) hconn
        · rfl
        · rfl
      rw [if_neg hconn, hreusable]

end Fold

/-! ## Connections that the backend closes -/

/-- The line says `close`, in any letter case. -/
def SaysClose (line : Bytes) : Prop := bytes "close" <:+: toLower (lineValue line)

instance (line : Bytes) : Decidable (SaysClose line) :=
  inferInstanceAs (Decidable (bytes "close" <:+: toLower (lineValue line)))

theorem isConnectionClose_iff (line : Bytes) : isConnectionClose (lineValue line) = true ↔ SaysClose line := by
  rw [isConnectionClose, ← not_iff_not, Bool.not_eq_true, Option.isSome_eq_false_iff,
    Option.isNone_iff_eq_none, find_eq_none_iff, SaysClose]

/-- The `Connection` header lines of a stream. -/
def connectionLines (s : Bytes) : List Bytes := (headerSection s).filter isConnection

/-- **When a connection that the backend closes stays out of the pool.** Reuse means that there is a
`Connection` line and that none of them says `close`, if and only if no line that says `close` stands
before a last one that does not. -/
theorem reusable_open_iff (request : Bytes) (maxBodyBytes : ℕ) (sends : List SendResult)
    (reads : List Bytes) (out : HttpResponse) (reusable : Bool)
    (h : sendAndReceive request maxBodyBytes sends reads = some (out, reusable)) :
    (reusable = true → connectionLines reads.flatten ≠ [] ∧
        ∀ l ∈ connectionLines reads.flatten, ¬ SaysClose l) ↔
      ∀ l ∈ connectionLines reads.flatten, SaysClose l →
        ∀ last ∈ (connectionLines reads.flatten).getLast?, SaysClose last := by
  obtain ⟨r, headerEnd, hacc⟩ := exists_accepted h
  have hflag := foldlM_reusable hacc.head_eq
  rw [hacc.reusable_eq, ← hacc.headerSection_eq] at hflag
  change reusable = ((connectionLines reads.flatten).getLast?.map
    fun l => !isConnectionClose (lineValue l)).getD false at hflag
  cases hlast : (connectionLines reads.flatten).getLast? with
  | none =>
    rw [hlast] at hflag
    simp [hflag]
  | some last =>
    have hmem := List.mem_of_getLast? hlast
    have hreusable : reusable = true ↔ ¬ SaysClose last := by
      rw [hflag, hlast, ← isConnectionClose_iff]
      simp
    simp only [hreusable, Option.mem_def, Option.some.injEq, forall_eq']
    constructor
    · intro hopen l hl hclose
      by_contra hnot
      exact (hopen hnot).2 l hl hclose
    · intro hcond hnot
      refine ⟨List.ne_nil_of_mem hmem, ?_⟩
      intro l hl hclose
      exact hnot (hcond l hl hclose)

/-- The backend says that it closes the connection, and then that it keeps it. -/
def closeThenKeep : List Bytes :=
  [bytes "HTTP/1.1 200 OK\r\nConnection: close\r\nConnection: keep-alive\r\nContent-Length: 0\r\n\r\n"]

theorem reusable_open_closeThenKeep :
    (true = true → connectionLines closeThenKeep.flatten ≠ [] ∧
        ∀ l ∈ connectionLines closeThenKeep.flatten, ¬ SaysClose l) ↔
      ∀ l ∈ connectionLines closeThenKeep.flatten, SaysClose l →
        ∀ last ∈ (connectionLines closeThenKeep.flatten).getLast?, SaysClose last :=
  reusable_open_iff [] 1024 [] closeThenKeep {} true (by decide)

/-- The last line wins, and the connection goes to the pool. -/
theorem closing_connection_pooled :
    ¬ ∀ (request : Bytes) (maxBodyBytes : ℕ) (sends : List SendResult) (reads : List Bytes)
        (out : HttpResponse),
      sendAndReceive request maxBodyBytes sends reads = some (out, true) →
      connectionLines reads.flatten ≠ [] ∧ ∀ l ∈ connectionLines reads.flatten, ¬ SaysClose l := by
  intro hopen
  have hlines := (hopen [] 1024 [] closeThenKeep {} (by decide)).2
  exact hlines (bytes "Connection: close") (by decide) (by decide)

/-! ## Status lines -/

/-- What a status line says: the number between its first and its second space, and what follows the
second one. -/
def readStatus (line : Bytes) : Option (ℤ × Bytes) :=
  match line.findIdx? (· = sp) with
  | none => none
  | some i =>
    match (line.drop (i + 1)).findIdx? (· = sp) with
    | none => none
    | some k => some (atoi ((line.drop (i + 1)).take k), line.drop (i + 1 + k + 1))

theorem readStatus_parts {version code : Bytes} (hversion : sp ∉ version) (hcode : sp ∉ code)
    (text : Bytes) : readStatus (version ++ sp :: (code ++ sp :: text)) = some (atoi code, text) := by
  rw [readStatus, findIdx?_eq_append_cons _ hversion]
  simp only [drop_length_append_cons, findIdx?_eq_append_cons text hcode, List.take_left, Option.some.injEq,
    Prod.mk.injEq, true_and]
  rw [Nat.add_assoc, ← List.drop_drop, drop_length_append_cons, drop_length_append_cons]

/-- A line has three parts exactly when it has two spaces. -/
theorem two_le_count_iff (line : Bytes) :
    2 ≤ line.count sp ↔
      ∃ version code text, line = version ++ sp :: (code ++ sp :: text) ∧ sp ∉ version ∧ sp ∉ code := by
  constructor
  · intro h
    obtain ⟨version, rest, rfl, hversion⟩ :=
      List.eq_append_cons_of_mem (List.count_pos_iff.mp (show 0 < line.count sp by omega))
    rw [List.count_append, List.count_eq_zero_of_not_mem hversion, List.count_cons_self] at h
    obtain ⟨code, text, rfl, hcode⟩ :=
      List.eq_append_cons_of_mem (List.count_pos_iff.mp (show 0 < rest.count sp by omega))
    exact ⟨version, code, text, rfl, hversion, hcode⟩
  · rintro ⟨version, code, text, rfl, -, -⟩
    simp only [List.count_append, List.count_cons_self]
    omega

theorem two_le_count_of_readStatus {line : Bytes} {status : ℤ × Bytes}
    (h : readStatus line = some status) : 2 ≤ line.count sp := by
  unfold readStatus at h
  split at h
  · simp at h
  · rename_i i hi
    obtain ⟨l, r, rfl, rfl, -⟩ := exists_of_findIdx?_eq hi
    rw [drop_length_append_cons] at h
    split at h
    · simp at h
    · rename_i k hk
      obtain ⟨l', r', rfl, -, -⟩ := exists_of_findIdx?_eq hk
      simp only [List.count_append, List.count_cons_self]
      omega

/-- A first line with two spaces is read as a status line. -/
theorem Accepted.readStatus_eq {maxBodyBytes : ℕ} {reads : List Bytes} {out : HttpResponse}
    {reusable : Bool} {r : Reader} {headerEnd : ℕ}
    (hacc : Accepted maxBodyBytes reads out reusable r headerEnd)
    (hcount : 2 ≤ (firstLine r.raw).count sp) :
    ¬ crlf <:+: out.statusText ∧
      readStatus (firstLine r.raw) = some (out.statusCode, out.statusText) := by
  obtain ⟨version, code, text, hline, hversion, hcode⟩ := (two_le_count_iff _).mp hcount
  obtain ⟨rest, hraw, -, hfirst, -⟩ := exists_lines_of_find hacc.found
  rw [hline] at hfirst
  have hresponse := hacc.response
  have hr : r = ⟨version ++ sp :: (code ++ sp :: text) ++ crlf
      ++ (lineBytes (headerSection r.raw) ++ crlf ++ rest), some headerEnd, r.head⟩ := by
    rw [← hline, ← hacc.headerEnd_eq]
    simp only [← List.append_assoc]
    rw [← hraw]
  rw [hr, response_of_statusLine hversion hcode hfirst, Option.some.injEq] at hresponse
  rw [hline, readStatus_parts hversion hcode, ← hresponse]
  refine ⟨fun hin => hfirst (hin.trans ?_), rfl⟩
  exact ⟨version ++ sp :: (code ++ [sp]), [], by simp⟩

/-- **When the status line is read from the first line only.** The status text has no line terminator and
the status is what the first line says, if and only if the first line has two spaces. -/
theorem statusLine_iff (request : Bytes) (maxBodyBytes : ℕ) (sends : List SendResult)
    (reads : List Bytes) (out : HttpResponse) (reusable : Bool)
    (h : sendAndReceive request maxBodyBytes sends reads = some (out, reusable)) :
    (¬ crlf <:+: out.statusText ∧
        readStatus (firstLine reads.flatten) = some (out.statusCode, out.statusText)) ↔
      2 ≤ (firstLine reads.flatten).count sp := by
  obtain ⟨r, headerEnd, hacc⟩ := exists_accepted h
  rw [hacc.firstLine_eq]
  constructor
  · rintro ⟨-, hstatus⟩
    exact two_le_count_of_readStatus hstatus
  · intro hcount
    exact hacc.readStatus_eq hcount

/-- A status line without a reason phrase and without the space before it. -/
def noReasonPhrase : List Bytes := [bytes "HTTP/1.1 200\r\nContent-Length: 0\r\n\r\n"]

/-- With both spaces the empty reason phrase is read. -/
theorem statusLine_emptyReason :
    (¬ crlf <:+: ([] : Bytes) ∧
        readStatus (firstLine [bytes "HTTP/1.1 200 \r\nContent-Length: 0\r\n\r\n"].flatten)
          = some (200, [])) ↔
      2 ≤ (firstLine [bytes "HTTP/1.1 200 \r\nContent-Length: 0\r\n\r\n"].flatten).count sp :=
  statusLine_iff [] 1024 [] [bytes "HTTP/1.1 200 \r\nContent-Length: 0\r\n\r\n"]
    { statusText := [] } false (by decide)

/-- The second space is the one before the length, and the end of the header section becomes the status
text. -/
theorem statusLine_below_first :
    ¬ ∀ (request : Bytes) (maxBodyBytes : ℕ) (sends : List SendResult) (reads : List Bytes)
        (out : HttpResponse) (reusable : Bool),
      sendAndReceive request maxBodyBytes sends reads = some (out, reusable) →
      ¬ crlf <:+: out.statusText ∧
        readStatus (firstLine reads.flatten) = some (out.statusCode, out.statusText) := by
  intro hfirst
  have hrun : sendAndReceive [] 1024 [] noReasonPhrase
      = some ({ statusText := bytes "0\r\n\r\n" }, false) := by decide
  exact (hfirst [] 1024 [] noReasonPhrase _ _ hrun).1 (by decide)

end ApiGateway.Core
