import ApiGateway.Common.Strings
import ApiGateway.Http.Message

/-!
# One exchange with a backend

`sendAndReceive`: write the request, read a length-delimited response. What the operating system does is
an argument: the results of the `send` calls, and the bytes of the successful `recv` calls. Where a list
of results ends, nothing more happens before the time is up; this, a failed `poll` and a failed or empty
`recv` make the function return `false`.

`receive` is the read loop with all the variables of the source in its state. It stops at the first read
that completes the message (`receive_spec`), with everything read so far in `raw`. So bytes of a later
message that come with the last read are dropped, and the connection is clean exactly when the message
ends where a read ends (`reusable_clean_iff`).

Reference: `sendAndReceive` and `isConnectionClose` in `src/core/Gateway.cpp`.
-/

namespace ApiGateway.Core

open Str Http

/-- What a round of the send loop can meet. -/
inductive SendResult where
  | sent (n : ℕ)
  | wouldBlock
  | failed
deriving DecidableEq, Repr

/-- The send loop, with the number of bytes left to send. -/
def sendAll : List SendResult → ℕ → Bool
  | _, 0 => true
  | [], _ + 1 => false
  | .sent n :: rest, k + 1 => if n = 0 then false else sendAll rest (k + 1 - n)
  | .wouldBlock :: rest, k + 1 => sendAll rest (k + 1)
  | .failed :: _, _ + 1 => false

def isConnectionClose (value : Bytes) : Bool := (find (toLower value) (bytes "close")).isSome

/-- What the header section of a response says. -/
structure ResponseHead where
  contentLength : ℕ := 0
  gotContentLength : Bool := false
  reusable : Bool := false
  headers : List (Bytes × Bytes) := []
deriving DecidableEq, Repr

/-- Take in one header line; `none` means that `sendAndReceive` returns `false`. -/
def ResponseHead.readLine (maxBodyBytes : ℕ) (h : ResponseHead) (line : Bytes) :
    Option ResponseHead :=
  match line.findIdx? (· = colon) with
  | none => none
  | some c =>
    let key := toLower (substr line 0 c)
    let value := (line.drop (c + 1)).dropWhile isspace
    if key = bytes "content-length" then
      if h.gotContentLength then none
      else
        match fromChars value with
        | none => none
        | some (n, stop) =>
          if stop ≠ value.length ∨ maxBodyBytes < n then none
          else some { h with contentLength := n, gotContentLength := true }
    else if key = bytes "transfer-encoding" then none
    else if key = bytes "connection" then some { h with reusable := !isConnectionClose value }
    else if key ≠ bytes "keep-alive" ∧ key ≠ bytes "proxy-connection" ∧ key ≠ bytes "upgrade" then
      some { h with headers := h.headers ++ [(key, value)] }
    else some h

/-- The loop over the header lines from `lineStart` on. A line moves `lineStart` forward by at least two
bytes, so that a fuel above `headerEnd` never runs out. -/
def readLines (maxBodyBytes : ℕ) (raw : Bytes) (headerEnd : ℕ) :
    ℕ → ℕ → ResponseHead → Option ResponseHead
  | 0, _, h => some h
  | fuel + 1, lineStart, h =>
    if lineStart < headerEnd then
      match findFrom raw crlf lineStart with
      | none => none
      | some lineEnd =>
        if headerEnd < lineEnd then none
        else
          match h.readLine maxBodyBytes (substr raw lineStart (lineEnd - lineStart)) with
          | none => none
          | some h => readLines maxBodyBytes raw headerEnd fuel (lineEnd + 2) h
    else some h

/-- Read the header section that ends at `headerEnd`. A `Content-Length` is required. -/
def readHead (maxBodyBytes : ℕ) (raw : Bytes) (headerEnd : ℕ) : Option ResponseHead :=
  match find raw crlf with
  | none => none
  | some first =>
    match readLines maxBodyBytes raw headerEnd (headerEnd + 1) (first + 2) {} with
    | none => none
    | some h => if h.gotContentLength then some h else none

/-- The variables of the read loop. -/
structure Reader where
  raw : Bytes := []
  headerEnd : Option ℕ := none
  head : ResponseHead := {}
deriving DecidableEq, Repr

/-- The blank line that ends the header section, with the line terminator before it. -/
def blankLine : Bytes := crlf ++ crlf

/-- The header section is read once, at the read that completes it. -/
def Reader.takeHead (maxBodyBytes : ℕ) (r : Reader) : Option Reader :=
  match r.headerEnd with
  | some _ => some r
  | none =>
    if 32768 < r.raw.length then none
    else
      match find r.raw blankLine with
      | none => some r
      | some headerEnd =>
        match readHead maxBodyBytes r.raw headerEnd with
        | none => none
        | some head => some { r with headerEnd := some headerEnd, head }

/-- Whether the loop is left. -/
def Reader.complete (r : Reader) : Bool :=
  match r.headerEnd with
  | none => false
  | some headerEnd => r.head.contentLength ≤ sizeSub r.raw.length (headerEnd + 4)

/-- The read loop. -/
def receive (maxBodyBytes : ℕ) : List Bytes → Reader → Option Reader
  | [], _ => none
  | chunk :: rest, r =>
    if chunk = [] then none
    else
      match Reader.takeHead maxBodyBytes { r with raw := r.raw ++ chunk } with
      | none => none
      | some r => if r.complete then some r else receive maxBodyBytes rest r

/-- The end of `sendAndReceive`: the status line, which the spaces are searched for in all that has been
read, and the body. -/
def Reader.response (r : Reader) : Option HttpResponse :=
  match r.headerEnd, r.raw.findIdx? (· = sp), find r.raw crlf with
  | some headerEnd, some firstSpace, some lineEnd =>
    match (r.raw.drop (firstSpace + 1)).findIdx? (· = sp) with
    | none => none
    | some k =>
      let secondSpace := firstSpace + 1 + k
      some
        { statusCode := atoi (substr r.raw (firstSpace + 1) (secondSpace - firstSpace - 1))
          statusText := substr r.raw (secondSpace + 1) (sizeSub (sizeSub lineEnd secondSpace) 1)
          headers := r.head.headers
          body := substr r.raw (headerEnd + 4) r.head.contentLength }
  | _, _, _ => none

/-- `sendAndReceive` with a new response: the response and whether the connection can be reused, or
`none` for `false`. -/
def sendAndReceive (request : Bytes) (maxBodyBytes : ℕ) (sends : List SendResult)
    (reads : List Bytes) : Option (HttpResponse × Bool) :=
  if sendAll sends request.length then
    match receive maxBodyBytes reads {} with
    | none => none
    | some r => r.response.map fun out => (out, r.head.reusable)
  else none

/-! ## The header section does not change when more is read -/

/-- A line terminator stands at `headerEnd`, so every line search before it succeeds within the same
bytes. -/
theorem readLines_append (maxBodyBytes : ℕ) {raw : Bytes} {headerEnd : ℕ}
    (hend : crlf <+: raw.drop headerEnd) (x : Bytes) (fuel lineStart : ℕ) (h : ResponseHead) :
    readLines maxBodyBytes (raw ++ x) headerEnd fuel lineStart h
      = readLines maxBodyBytes raw headerEnd fuel lineStart h := by
  induction fuel generalizing lineStart h with
  | zero => rfl
  | succ fuel ih =>
    simp only [readLines]
    by_cases hlt : lineStart < headerEnd
    · have hlen : headerEnd + 2 ≤ raw.length := by
        have := hend.length_le
        simp only [crlf, List.length_cons, List.length_nil, List.length_drop] at this
        omega
      have hinfix : crlf <:+: raw.drop lineStart := by
        rw [← Nat.add_sub_cancel' hlt.le, ← List.drop_drop] at hend
        exact hend.isInfix.trans (List.drop_suffix _ _).isInfix
      cases hfind : find (raw.drop lineStart) crlf with
      | none => exact absurd hinfix ((find_eq_none_iff _ _).mp hfind)
      | some k =>
        have hle := add_length_le_of_find hfind
        simp only [crlf, List.length_cons, List.length_nil, List.length_drop] at hle
        have hsearch : findFrom raw crlf lineStart = some (lineStart + k) := by
          simp [findFrom, hfind]
        have hsearch' : findFrom (raw ++ x) crlf lineStart = some (lineStart + k) := by
          rw [findFrom, List.drop_append_of_le_length (by omega), find_append x hfind]
          rfl
        have hline : substr (raw ++ x) lineStart (lineStart + k - lineStart)
            = substr raw lineStart (lineStart + k - lineStart) := by
          rw [substr, substr, List.drop_append_of_le_length (by omega),
            List.take_append_of_le_length (by rw [List.length_drop]; omega)]
        simp only [hlt, if_true, hsearch, hsearch', hline, ih]
    · simp only [hlt, if_false]

theorem readHead_append (maxBodyBytes : ℕ) {raw : Bytes} {headerEnd : ℕ}
    (hend : find raw blankLine = some headerEnd) (x : Bytes) :
    readHead maxBodyBytes (raw ++ x) headerEnd = readHead maxBodyBytes raw headerEnd := by
  have hpre : crlf <+: raw.drop headerEnd :=
    (List.prefix_append crlf crlf).trans (prefix_drop_of_find hend)
  unfold readHead
  cases hfind : find raw crlf with
  | none =>
    have hinfix := hpre.isInfix.trans (List.drop_suffix _ _).isInfix
    exact absurd hinfix ((find_eq_none_iff _ _).mp hfind)
  | some first => simp only [find_append x hfind, readLines_append maxBodyBytes hpre]

/-! ## Where the message ends -/

/-- The end of the first message of a stream: its header section, the blank line and as many bytes as it
announces. -/
def messageEnd (maxBodyBytes : ℕ) (s : Bytes) : Option ℕ :=
  match find s blankLine with
  | none => none
  | some headerEnd =>
    (readHead maxBodyBytes s headerEnd).map fun head => headerEnd + 4 + head.contentLength

theorem messageEnd_append {maxBodyBytes : ℕ} {s : Bytes} {headerEnd : ℕ}
    (h : find s blankLine = some headerEnd) (x : Bytes) :
    messageEnd maxBodyBytes (s ++ x) = messageEnd maxBodyBytes s := by
  simp only [messageEnd, find_append x h, h, readHead_append maxBodyBytes h]

theorem add_four_le_of_find {s : Bytes} {headerEnd : ℕ} (h : find s blankLine = some headerEnd) :
    headerEnd + 4 ≤ s.length := add_length_le_of_find h

/-- A part of a stream that holds no complete header section ends before the message does. -/
theorem length_lt_of_find_eq_none {s x : Bytes} {headerEnd : ℕ} (hnone : find s blankLine = none)
    (h : find (s ++ x) blankLine = some headerEnd) : s.length < headerEnd + 4 := by
  by_contra hle
  rw [find_eq_none_iff] at hnone
  apply hnone
  -- the blank line would lie within `s`
  have hpre := prefix_drop_of_find h
  rw [List.drop_append_of_le_length (by omega)] at hpre
  have hin : blankLine <+: s.drop headerEnd := by
    refine List.prefix_of_prefix_length_le hpre (List.prefix_append _ _) ?_
    simp only [blankLine, crlf, List.length_append, List.length_cons, List.length_nil,
      List.length_drop]
    omega
  exact hin.isInfix.trans (List.drop_suffix _ _).isInfix

/-- A part of a stream that holds its header section determines where the message ends. -/
theorem messageEnd_of_le {maxBodyBytes : ℕ} {s x : Bytes} {headerEnd : ℕ}
    (h : find (s ++ x) blankLine = some headerEnd) (hle : headerEnd + 4 ≤ s.length) :
    messageEnd maxBodyBytes s = messageEnd maxBodyBytes (s ++ x) := by
  cases hnone : find s blankLine with
  | none =>
    have := length_lt_of_find_eq_none hnone h
    omega
  | some i => exact (messageEnd_append hnone x).symm

/-! ## The read loop -/

/-- The reader's variables are what `raw` makes them. -/
def Reader.Faithful (maxBodyBytes : ℕ) (r : Reader) : Prop :=
  match r.headerEnd with
  | none => find r.raw blankLine = none
  | some headerEnd => find r.raw blankLine = some headerEnd ∧
      readHead maxBodyBytes r.raw headerEnd = some r.head

theorem Reader.Faithful.takeHead {maxBodyBytes : ℕ} {r r' : Reader} (hr : r.Faithful maxBodyBytes)
    (chunk : Bytes)
    (h : Reader.takeHead maxBodyBytes { r with raw := r.raw ++ chunk } = some r') :
    r'.raw = r.raw ++ chunk ∧ r'.Faithful maxBodyBytes := by
  unfold Reader.takeHead at h
  cases hend : r.headerEnd with
  | some headerEnd =>
    rw [Reader.Faithful, hend] at hr
    simp only [hend, Option.some.injEq] at h
    subst h
    refine ⟨rfl, ?_⟩
    simp only [Reader.Faithful]
    exact ⟨find_append chunk hr.1, (readHead_append maxBodyBytes hr.1 chunk).trans hr.2⟩
  | none =>
    simp only [hend] at h
    split at h
    · simp at h
    · split at h
      · rename_i hfind
        obtain rfl := Option.some.inj h
        exact ⟨rfl, by simpa only [Reader.Faithful] using hfind⟩
      · rename_i headerEnd hfind
        split at h
        · simp at h
        · rename_i head hhead
          obtain rfl := Option.some.inj h
          exact ⟨rfl, hfind, hhead⟩

/-- A reader is complete when it has the whole message. -/
theorem Reader.Faithful.complete_iff {maxBodyBytes : ℕ} {r : Reader}
    (hr : r.Faithful maxBodyBytes) :
    r.complete = true ↔ ∃ e, messageEnd maxBodyBytes r.raw = some e ∧ e ≤ r.raw.length := by
  unfold Reader.complete messageEnd
  unfold Reader.Faithful at hr
  cases hend : r.headerEnd with
  | none =>
    rw [hend] at hr
    simp [hr]
  | some headerEnd =>
    rw [hend] at hr
    have hlen := add_four_le_of_find hr.1
    simp only [hr.1, hr.2, Option.map_some, Option.some.injEq, exists_eq_left',
      decide_eq_true_eq, sizeSub_of_le hlen]
    omega

/-- **The loop stops at the first read that completes the message.** -/
theorem receive_spec {maxBodyBytes : ℕ} {reads : List Bytes} {r r' : Reader}
    (hr : r.Faithful maxBodyBytes) (h : receive maxBodyBytes reads r = some r') :
    r'.Faithful maxBodyBytes ∧ r'.complete = true ∧
      ∃ k, r'.raw = r.raw ++ (reads.take k).flatten ∧
        ∀ j < k, 0 < j → ∀ e, messageEnd maxBodyBytes (r.raw ++ (reads.take j).flatten) = some e →
          (r.raw ++ (reads.take j).flatten).length < e := by
  induction reads generalizing r with
  | nil => simp [receive] at h
  | cons chunk reads ih =>
    rw [receive] at h
    split at h
    · simp at h
    · split at h
      · simp at h
      · rename_i r₁ htake
        obtain ⟨hraw, hr₁⟩ := hr.takeHead chunk htake
        split at h
        · rename_i hcomplete
          obtain rfl := Option.some.inj h
          refine ⟨hr₁, hcomplete, 1, by simpa using hraw, ?_⟩
          intro j hj hpos
          omega
        · rename_i hmore
          obtain ⟨hr', hcomplete, k, hraw', hbefore⟩ := ih hr₁ h
          refine ⟨hr', hcomplete, k + 1, ?_, ?_⟩
          · rw [hraw', hraw, List.take_succ_cons, List.flatten_cons, List.append_assoc]
          · intro j hj _ e he
            obtain ⟨i, rfl⟩ : ∃ i, j = i + 1 := ⟨j - 1, by omega⟩
            have hsame : r.raw ++ ((chunk :: reads).take (i + 1)).flatten
                = r₁.raw ++ (reads.take i).flatten := by
              rw [hraw, List.take_succ_cons, List.flatten_cons, List.append_assoc]
            rw [hsame] at he ⊢
            by_cases hi : i = 0
            · -- the reader was asked right after this read
              subst hi
              simp only [List.take_zero, List.flatten_nil, List.append_nil] at he ⊢
              by_contra hle
              exact hmore (hr₁.complete_iff.mpr ⟨e, he, by omega⟩)
            · exact hbefore i (by omega) (by omega) e he

/-! ## Clean connections -/

theorem faithful_new (maxBodyBytes : ℕ) : Reader.Faithful maxBodyBytes {} := rfl

/-- A complete reader has found the header section, and knows where the message ends. -/
theorem Reader.Faithful.exists_headerEnd {maxBodyBytes : ℕ} {r : Reader}
    (hr : r.Faithful maxBodyBytes) (hcomplete : r.complete = true) :
    ∃ headerEnd, r.headerEnd = some headerEnd ∧ find r.raw blankLine = some headerEnd ∧
      messageEnd maxBodyBytes r.raw = some (headerEnd + 4 + r.head.contentLength) ∧
      headerEnd + 4 + r.head.contentLength ≤ r.raw.length := by
  obtain ⟨e, he, hle⟩ := hr.complete_iff.mp hcomplete
  unfold Reader.Faithful at hr
  cases hend : r.headerEnd with
  | none => simp [Reader.complete, hend] at hcomplete
  | some headerEnd =>
    rw [hend] at hr
    have hmsg : messageEnd maxBodyBytes r.raw
        = some (headerEnd + 4 + r.head.contentLength) := by
      simp only [messageEnd, hr.1, hr.2, Option.map_some]
    rw [hmsg] at he
    exact ⟨headerEnd, rfl, hr.1, hmsg, (Option.some.inj he) ▸ hle⟩

/-- **When a connection goes back to the pool clean.** Whenever `sendAndReceive` succeeds and the
connection is to be reused, the bytes read are exactly one response if and only if the first message of
the stream ends where a read ends. -/
theorem reusable_clean_iff (request : Bytes) (maxBodyBytes : ℕ) (sends : List SendResult)
    (reads : List Bytes) (out : HttpResponse)
    (h : sendAndReceive request maxBodyBytes sends reads = some (out, true)) :
    ∃ r headerEnd, receive maxBodyBytes reads {} = some r ∧ r.headerEnd = some headerEnd ∧
      (r.raw.length = headerEnd + 4 + r.head.contentLength ↔
        ∃ k, messageEnd maxBodyBytes reads.flatten = some (reads.take k).flatten.length) := by
  unfold sendAndReceive at h
  split at h
  · split at h
    · simp at h
    · rename_i r hreceive
      obtain ⟨hr, hcomplete, k, hraw, hbefore⟩ := receive_spec (faithful_new maxBodyBytes) hreceive
      obtain ⟨headerEnd, hend, hfind, hmsg, hle⟩ := hr.exists_headerEnd hcomplete
      simp only [List.nil_append] at hraw hbefore
      have hstream : reads.flatten = r.raw ++ (reads.drop k).flatten := by
        rw [hraw, ← List.flatten_append, List.take_append_drop]
      refine ⟨r, headerEnd, hreceive, hend, ?_⟩
      rw [hstream, messageEnd_append hfind, hmsg]
      constructor
      · intro heq
        exact ⟨k, by rw [← hraw, heq]⟩
      · rintro ⟨j, hj⟩
        have hj' : headerEnd + 4 + r.head.contentLength = (reads.take j).flatten.length :=
          Option.some.inj hj
        by_cases hkj : k ≤ j
        · -- the message ends at a later boundary than the loop
          have hprefix : r.raw.length ≤ (reads.take j).flatten.length := by
            rw [hraw, ← Nat.add_sub_cancel' hkj, List.take_add, List.flatten_append,
              List.length_append]
            omega
          omega
        · -- the loop would have stopped at the earlier boundary
          have hsplit : r.raw = (reads.take j).flatten ++ ((reads.drop j).take (k - j)).flatten := by
            rw [hraw, ← List.flatten_append, ← List.take_add, Nat.add_sub_cancel' (by omega)]
          have hpos : 0 < j := by
            rcases Nat.eq_zero_or_pos j with rfl | hpos
            · simp at hj'
            · exact hpos
          have hmsg' : messageEnd maxBodyBytes (reads.take j).flatten
              = some (headerEnd + 4 + r.head.contentLength) := by
            rw [← hmsg, hsplit]
            exact messageEnd_of_le (hsplit ▸ hfind) (by omega)
          have := hbefore j (by omega) hpos _ hmsg'
          omega
  · simp at h

/-- An empty response and the first byte of what follows it, in one read. -/
def surplusRead : List Bytes :=
  [bytes "HTTP/1.1 200 OK\r\nContent-Length: 0\r\nConnection: keep-alive\r\n\r\nH"]

theorem reusable_clean_surplusRead :
    ∃ r headerEnd, receive 1024 surplusRead {} = some r ∧ r.headerEnd = some headerEnd ∧
      (r.raw.length = headerEnd + 4 + r.head.contentLength ↔
        ∃ k, messageEnd 1024 surplusRead.flatten = some (surplusRead.take k).flatten.length) :=
  reusable_clean_iff [] 1024 [] surplusRead
    { statusCode := 200, statusText := bytes "OK", headers := [], body := [] } (by decide)

/-- The surplus is read and dropped, and the connection is reused. -/
theorem surplus_dropped :
    ¬ ∀ (request : Bytes) (maxBodyBytes : ℕ) (sends : List SendResult) (reads : List Bytes)
        (out : HttpResponse) (r : Reader) (headerEnd : ℕ),
      (∀ chunk ∈ reads, 1 ≤ chunk.length ∧ chunk.length ≤ 8192) →
      sendAndReceive request maxBodyBytes sends reads = some (out, true) →
      receive maxBodyBytes reads {} = some r → r.headerEnd = some headerEnd →
      r.raw.length = headerEnd + 4 + r.head.contentLength := by
  intro hclean
  have hrun : sendAndReceive [] 1024 [] surplusRead = some ({ statusText := bytes "OK" }, true) ∧
      (receive 1024 surplusRead {}).map (fun r => (r.headerEnd, r.raw.length, r.head.contentLength))
        = some (some 58, 63, 0) := by decide
  cases hreceive : receive 1024 surplusRead {} with
  | none => simp [hreceive] at hrun
  | some r =>
    obtain ⟨hend, hlen, hcl⟩ : r.headerEnd = some 58 ∧ r.raw.length = 63 ∧
        r.head.contentLength = 0 := by simpa [hreceive] using hrun.2
    have := hclean [] 1024 [] surplusRead _ r 58 (by decide) hrun.1 hreceive hend
    omega

end ApiGateway.Core
