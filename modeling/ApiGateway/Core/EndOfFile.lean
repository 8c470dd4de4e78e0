import ApiGateway.Core.Delivery
import ApiGateway.Http.Finality

/-!
# Requests received before the end of the stream

`onReadable` first reads and then parses. As long as each event gets as far as parsing what it has read,
the requests handed to `handleRequest` are those that the bytes received so far contain, up to a closing
response or a parse error (`Keeps`). The loop over `recv` has two exits that skip the parsing: end-of-file
and an error. They are taken with unparsed bytes in the buffer only behind a read that has filled the
buffer of `recv` exactly, since a shorter read ends the loop.

Reference: `Worker::onReadable` in `src/core/Gateway.cpp`.
-/

namespace ApiGateway.Core

open Str Http Resumable

variable {σ ρ : Type*} (sys : Subsystems σ ρ)

/-! ## What an event receives -/

/-- The bytes that `recv` returns before the loop over it is left. -/
def receivedBytes : List RecvResult → Bytes
  | [] => []
  | .data chunk :: rest =>
    if chunk.length < recvBufferSize then chunk else chunk ++ receivedBytes rest
  | .wouldBlock :: _ => []
  | .interrupted :: rest => receivedBytes rest
  | .failed :: _ => []

/-- The loop over `recv` is left at end-of-file or at an error. -/
def BreaksOff : List RecvResult → Prop
  | [] => False
  | .data chunk :: rest => chunk = [] ∨ (recvBufferSize ≤ chunk.length ∧ BreaksOff rest)
  | .wouldBlock :: _ => False
  | .interrupted :: rest => BreaksOff rest
  | .failed :: _ => True

/-- An event in which bytes are received and then the loop over `recv` is left without parsing them. -/
def Event.DropsInput : Event σ → Prop
  | .poll false true _ _ recvs _ _ _ => BreaksOff recvs ∧ receivedBytes recvs ≠ []
  | _ => False

/-- The bytes an event receives. -/
def received (conn : Option ClientConnection) : Event σ → Bytes
  | .poll false true _ _ recvs _ _ _ => if conn.isSome then receivedBytes recvs else []
  | _ => []

/-- The connection's run, with the bytes received as its log. -/
def recvStep (conn : Option ClientConnection) (e : Event σ) : Option ClientConnection × Bytes :=
  ((onEvent sys conn e).1, received conn e)

theorem breaksOff_of_recvLoop {now : ℤ} {recvs : List RecvResult} {c : ClientConnection}
    (h : recvLoop now recvs c = none) : BreaksOff recvs := by
  induction recvs generalizing c with
  | nil => simp [recvLoop] at h
  | cons r rest ih =>
    cases r with
    | data chunk =>
      rw [recvLoop] at h
      split at h
      · exact .inl ‹_›
      · dsimp only at h
        split at h
        · simp at h
        · exact .inr ⟨not_lt.mp ‹_›, ih h⟩
    | wouldBlock => simp [recvLoop] at h
    | interrupted => exact ih (c := c) h
    | failed => trivial

theorem parser_of_recvLoop {now : ℤ} {recvs : List RecvResult} {c c' : ClientConnection}
    (h : recvLoop now recvs c = some c') : c'.parser = c.parser.append (receivedBytes recvs) := by
  have hnone : ∀ p : HttpParser, p = p.append [] := fun p => by rw [HttpParser.append, List.append_nil]
  induction recvs generalizing c with
  | nil =>
    obtain rfl := Option.some.inj h
    exact hnone _
  | cons r rest ih =>
    cases r with
    | data chunk =>
      rw [recvLoop] at h
      split at h
      · simp at h
      · dsimp only at h
        rw [receivedBytes]
        split at h
        · rename_i hshort
          obtain rfl := Option.some.inj h
          rw [if_pos hshort]
        · rename_i hfull
          rw [if_neg hfull, ih h]
          simp only [HttpParser.append, List.append_assoc]
    | wouldBlock =>
      obtain rfl := Option.some.inj h
      exact hnone _
    | interrupted => exact ih (c := c) h
    | failed => simp [recvLoop] at h

/-! ## Serving drains the parser -/

/-- The results of the parser while the requests are served, and the parser afterwards, in terms of
draining: all of it, up to an error, or up to the first request that closes the connection. -/
inductive Served : List HttpRequest × Halt Progress UInt8 → List Parsed → HttpParser → Prop
  | waits (rs : List HttpRequest) {g : Progress} {u : Bytes} {p : HttpParser} :
      (∀ r ∈ rs, r.keepAlive = true) → Rep p g u → Served (rs, .more g u) (rs.map .complete) p
  | fails (rs : List HttpRequest) {p : HttpParser} :
      (∀ r ∈ rs, r.keepAlive = true) → Served (rs, .fail) (rs.map .complete ++ [.malformed]) p
  | closes (rs : List HttpRequest) {rs' : List HttpRequest} {r : HttpRequest}
      {halt : Halt Progress UInt8} {p : HttpParser} :
      (∀ r ∈ rs, r.keepAlive = true) → r.keepAlive = false →
      Served (rs ++ r :: rs', halt) (rs.map .complete ++ [.complete r]) p

theorem Served.cons {rs : List HttpRequest} {halt : Halt Progress UInt8} {results : List Parsed}
    {p : HttpParser} {r : HttpRequest} (h : Served (rs, halt) results p) (hr : r.keepAlive = true) :
    Served (r :: rs, halt) (.complete r :: results) p := by
  have hall : ∀ {rs : List HttpRequest}, (∀ r ∈ rs, r.keepAlive = true) →
      ∀ r' ∈ r :: rs, r'.keepAlive = true := by
    intro rs hrs r' hr'
    rcases List.mem_cons.mp hr' with rfl | hr'
    · exact hr
    · exact hrs r' hr'
  cases h with
  | waits rs hrs hrep => exact .waits (r :: rs) (hall hrs) hrep
  | fails rs hrs => exact .fails (r :: rs) (hall hrs)
  | closes rs₁ hrs hr' => exact .closes (r :: rs₁) (hall hrs) hr'

/-- **Serving the requests drains the parser**, as far as its results go. -/
theorem served_serveLoop (fuel : ℕ) {c : ClientConnection} {g : Progress} {u : Bytes}
    (hrep : Rep c.parser g u) (hfuel : c.parser.buffer.length < fuel) (gw : σ) :
    Served (scanner.drain g u) (parseLoop fuel c.parser) (serveLoop sys fuel c gw).1.parser := by
  induction fuel generalizing c g u gw with
  | zero => omega
  | succ fuel ih =>
    have hsim := parse_sim hrep {}
    rw [parseLoop]
    rcases serveLoop_succ sys fuel c gw with ⟨p, out, hparse, heq⟩ | ⟨p, out, hparse, heq⟩ |
      ⟨p, req, resp, gw', hparse, -, hcase⟩
    · rw [hparse] at hsim ⊢
      obtain ⟨-, g', w, hsil, hmore, hp⟩ := hsim
      rw [heq, hsil.drain_eq, scanner.drain_of_more hmore]
      exact .waits [] (by simp) hp
    · rw [hparse] at hsim ⊢
      obtain ⟨-, g', w, hsil, hfail, -⟩ := hsim
      rw [heq, hsil.drain_eq, scanner.drain_of_fail hfail]
      exact .fails [] (by simp)
    · rw [hparse] at hsim ⊢
      obtain ⟨g', w, r, v, hsil, hstep, rfl, hreq⟩ := hsim
      have hid : req = r := by
        obtain ⟨k, n, -, -, -, -, rfl⟩ := Progress.step_some hstep
        exact hreq
      subst hid
      rw [hsil.drain_eq, scanner.drain_of_next hstep]
      change Served (req :: (scanner.drain .requestLine v).1, (scanner.drain .requestLine v).2)
        (.complete req :: if req.keepAlive then parseLoop fuel { buffer := v } else []) _
      rcases hcase with ⟨hkeep, heq⟩ | ⟨hkeep, heq⟩
      · rw [if_neg (by simp [hkeep])]
        exact .closes [] (by simp) hkeep
      · have hlt := length_lt_of_complete hrep hsil hstep
        rw [if_pos hkeep, heq]
        exact (ih (c := ({ c with parser := { buffer := v } } : ClientConnection).appendWrite
          (resp.serialize true) false) (rep_start v) (by exact (by omega : v.length < fuel)) gw').cons hkeep

/-! ## Runs -/

/-- The requests that bytes contain, as far as they are well formed. -/
def requestsIn (s : Bytes) : List HttpRequest := (scanner.drain .requestLine s).1

/-- **The parser keeps up.** Its results are the requests in the bytes received, and what is open stands for
the rest; unless a request has closed the connection, or an error has ended it. -/
inductive Keeps : Option ClientConnection → List Parsed → Bytes → Prop
  | waits {conn : Option ClientConnection} (rs : List HttpRequest) {g : Progress} {u s : Bytes} :
      (∀ r ∈ rs, r.keepAlive = true) → scanner.drain .requestLine s = (rs, .more g u) →
      (∀ c, conn = some c → Rep c.parser g u) → Keeps conn (rs.map .complete) s
  | closes {conn : Option ClientConnection} (rs : List HttpRequest) {r : HttpRequest}
      {later : List Parsed} {s : Bytes} :
      r.keepAlive = false → rs ++ [r] <+: requestsIn s →
      Keeps conn (rs.map .complete ++ .complete r :: later) s
  | fails {conn : Option ClientConnection} (rs : List HttpRequest) {later : List Parsed} {s : Bytes} :
      rs <+: requestsIn s → Keeps conn (rs.map .complete ++ .malformed :: later) s

/-- Results of more bytes, from a parser that waits. -/
theorem Keeps.serve {conn : Option ClientConnection} {rs : List HttpRequest} {g : Progress}
    {u s data : Bytes} {results : List Parsed} {p : HttpParser} (hrs : ∀ r ∈ rs, r.keepAlive = true)
    (hs : scanner.drain .requestLine s = (rs, .more g u))
    (hserved : Served (scanner.drain g (u ++ data)) results p)
    (hconn : ∀ c, conn = some c → c.parser = p) :
    Keeps conn (rs.map .complete ++ results) (s ++ data) := by
  have hdrain := Scanner.drain_append_of_more hs data
  generalize scanner.drain g (u ++ data) = d at hserved hdrain
  cases hserved with
  | waits rs' hrs' hrep =>
    rw [← List.map_append]
    refine .waits _ ?_ hdrain ?_
    · intro r hr
      rcases List.mem_append.mp hr with hr | hr
      · exact hrs r hr
      · exact hrs' r hr
    · intro c hc
      rw [hconn c hc]
      exact hrep
  | fails rs' hrs' =>
    rw [← List.append_assoc, ← List.map_append]
    exact .fails _ (by rw [requestsIn, hdrain])
  | @closes rs₁ rs₂ r _ _ hrs' hr =>
    rw [← List.append_assoc, ← List.map_append]
    refine .closes _ hr ?_
    rw [requestsIn, hdrain]
    exact ⟨rs₂, by simp⟩

/-- After its end nothing more is asked of a run. -/
theorem Keeps.later {conn conn' : Option ClientConnection} {results : List Parsed} {s : Bytes}
    (h : Keeps conn results s) (more : List Parsed) (data : Bytes)
    (hwaits : ∀ rs g u, (∀ r ∈ rs, r.keepAlive = true) → results = rs.map .complete →
      scanner.drain .requestLine s = (rs, .more g u) → (∀ c, conn = some c → Rep c.parser g u) →
      Keeps conn' (results ++ more) (s ++ data)) :
    Keeps conn' (results ++ more) (s ++ data) := by
  have hgrow : requestsIn s <+: requestsIn (s ++ data) := Scanner.prefix_drain_append _ s data
  cases h with
  | waits rs hrs hs hrep => exact hwaits _ _ _ hrs rfl hs hrep
  | closes rs hr hbegins =>
    rw [List.append_assoc, List.cons_append]
    exact .closes rs hr (hbegins.trans hgrow)
  | fails rs hbegins =>
    rw [List.append_assoc, List.cons_append]
    exact .fails rs (hbegins.trans hgrow)

theorem exists_of_andThen {r : Option ClientConnection × List Effect} {c' : ClientConnection}
    {f : ClientConnection → Option ClientConnection × List Effect} (h : (andThen r f).1 = some c') :
    ∃ c, r.1 = some c ∧ (f c).1 = some c' := by
  rcases r with ⟨_ | c, es⟩
  · simp [andThen] at h
  · exact ⟨c, rfl, h⟩

/-- What comes behind reading in an event leaves the parser alone. -/
theorem exists_of_onEvent_poll {readable writable : Bool} {now : ℤ} {recvs : List RecvResult}
    {sends sendsLater : List SendResult} {gw : σ} {c c' : ClientConnection}
    (h : (onEvent sys (some c) (.poll false readable writable now recvs sends sendsLater gw)).1
      = some c') :
    ∃ c₁, (if readable then onReadable sys now recvs sends gw c else (some c, [])).1 = some c₁ ∧
      c'.parser = c₁.parser := by
  rw [onEvent] at h
  obtain ⟨c₀, hc₀, h⟩ := exists_of_andThen h
  obtain rfl := Option.some.inj hc₀
  rw [if_neg Bool.false_ne_true] at h
  obtain ⟨c₁, hc₁, h⟩ := exists_of_andThen h
  refine ⟨c₁, hc₁, ?_⟩
  split at h
  · exact parser_of_flushIfPossible h
  · obtain rfl := Option.some.inj h
    rfl

/-- **One event.** -/
theorem Keeps.onEvent {conn : Option ClientConnection} {results : List Parsed} {s : Bytes}
    (h : Keeps conn results s) {e : Event σ} (hok : ¬ e.DropsInput) :
    Keeps (onEvent sys conn e).1 (results ++ parsed conn e) (s ++ received conn e) := by
  refine h.later _ _ ?_
  rintro rs g u hrs rfl hs hrep
  -- nothing received, nothing parsed
  have hidle : ∀ {conn' : Option ClientConnection}, (∀ c', conn' = some c' → Rep c'.parser g u) →
      Keeps conn' (rs.map .complete ++ []) (s ++ []) := by
    intro conn' hconn'
    rw [List.append_nil, List.append_nil]
    exact .waits rs hrs hs hconn'
  cases conn with
  | none =>
    cases e with
    | sweep now => exact hidle (by simp [Core.onEvent, andThen])
    | poll hangup readable =>
      cases hangup <;> cases readable <;> exact hidle (by simp [Core.onEvent, andThen])
  | some c =>
    have hc := hrep c rfl
    cases e with
    | sweep now =>
      refine hidle fun c' hc' => ?_
      obtain ⟨c₁, hc₁, hc'⟩ := exists_of_andThen hc'
      obtain rfl := Option.some.inj hc₁
      split at hc'
      · simp at hc'
      · obtain rfl := Option.some.inj hc'
        exact hc
    | poll hangup readable writable now recvs sends sendsLater gw =>
      cases hangup with
      | true => cases readable <;> exact hidle (by simp [Core.onEvent, andThen])
      | false =>
        cases readable with
        | false =>
          refine hidle fun c' hc' => ?_
          obtain ⟨c₁, hc₁, hparser⟩ := exists_of_onEvent_poll sys hc'
          obtain rfl := Option.some.inj hc₁
          rw [hparser]
          exact hc
        | true =>
          rw [parsed, received, Option.bind_some]
          cases hrecv : recvLoop now recvs c with
          | none =>
            -- the loop over `recv` has been left, but with nothing to lose
            have hnothing : receivedBytes recvs = [] := by
              by_contra hne
              exact hok ⟨breaksOff_of_recvLoop hrecv, hne⟩
            rw [Option.isSome_some, if_pos rfl, hnothing]
            refine hidle fun c' hc' => ?_
            obtain ⟨c₁, hc₁, -⟩ := exists_of_onEvent_poll sys hc'
            simp [onReadable, hrecv] at hc₁
          | some c₁ =>
            have hc₁ := hc.append (receivedBytes recvs)
            rw [← parser_of_recvLoop hrecv] at hc₁
            have hserved := served_serveLoop sys (c₁.parser.buffer.length + 1) hc₁
              (Nat.lt_succ_self _) gw
            refine .serve hrs hs hserved fun c' hc' => ?_
            obtain ⟨c₂, hc₂, hparser⟩ := exists_of_onEvent_poll sys hc'
            rw [if_pos rfl, onReadable, hrecv] at hc₂
            obtain ⟨c₃, hc₃, hc₂⟩ := exists_of_andThen hc₂
            obtain rfl := Option.some.inj hc₃
            rw [hparser]
            exact parser_of_flushIfPossible hc₂

/-- The requests handed to `handleRequest`. -/
def handledRequests (l : List Effect) : List HttpRequest :=
  l.filterMap fun
    | .handled req => some req
    | _ => none

theorem handledRequests_append (l l' : List Effect) :
    handledRequests (l ++ l') = handledRequests l ++ handledRequests l' := List.filterMap_append

theorem handledRequests_filter (l : List Effect) :
    handledRequests (l.filter (·.isService)) = handledRequests l := by
  rw [handledRequests, List.filterMap_filter]
  refine congrArg (List.filterMap · l) (funext fun e => ?_)
  cases e <;> rfl

/-- As long as there is no error, the requests handed to `handleRequest` are the results of the parser. -/
theorem handled_of_accounted {l : List Effect} {results : List Parsed} (h : Accounted sys l results)
    {i : ℕ} {r : HttpRequest} (hr : results[i]? = some (.complete r))
    (hnone : ∀ k ≤ i, results[k]? ≠ some .malformed) :
    ∃ requestId : Bytes, (handledRequests l)[i]? = some { r with requestId } := by
  obtain ⟨answers, hanswers, hl⟩ := h
  rw [← handledRequests_filter, hl]
  clear hl
  induction hanswers generalizing i with
  | nil => simp at hr
  | @cons x es results answers hx _ ih =>
    have hx' : ∃ r' requestId, x = .complete r' ∧ handledRequests es = [{ r' with requestId }] := by
      cases x with
      | malformed => exact absurd rfl (hnone 0 (Nat.zero_le _))
      | complete r' =>
        obtain ⟨requestId, resp, c, gw, gw', -, rfl⟩ := hx
        exact ⟨r', requestId, rfl, rfl⟩
    obtain ⟨r', requestId, rfl, hes⟩ := hx'
    rw [List.flatten_cons, handledRequests_append, hes]
    cases i with
    | zero =>
      obtain rfl : r' = r := by simpa using hr
      exact ⟨requestId, rfl⟩
    | succ i => exact ih hr fun k hk => hnone (k + 1) (Nat.succ_le_succ hk)

/-- The results begin with requests that are among those of the stream. -/
theorem getElem?_of_isPrefix {ys rs : List HttpRequest} (h : ys <+: rs) (later : List Parsed) {i : ℕ}
    (hi : i < ys.length) {r : HttpRequest} (hr : rs[i]? = some r) :
    (ys.map Parsed.complete ++ later)[i]? = some (.complete r) := by
  obtain ⟨t, rfl⟩ := h
  rw [List.getElem?_append_left hi] at hr
  rw [List.getElem?_append_left (by simpa using hi), List.getElem?_map, hr, Option.map_some]

theorem Keeps.result {conn : Option ClientConnection} {results : List Parsed} {s : Bytes}
    (h : Keeps conn results s) {i : ℕ} {r : HttpRequest} (hr : (requestsIn s)[i]? = some r)
    (hopen : ∀ j < i, ∀ r', (requestsIn s)[j]? = some r' → r'.keepAlive = true)
    (hnone : ∀ k ≤ i, results[k]? ≠ some .malformed) : results[i]? = some (.complete r) := by
  cases h with
  | waits rs hrs hs hrep =>
    rw [requestsIn, hs] at hr
    rw [List.getElem?_map, hr, Option.map_some]
  | @closes rs r₁ later _ hr₁ hbegins =>
    have hi : i < (rs ++ [r₁]).length := by
      by_contra hlong
      simp only [List.length_append, List.length_singleton, not_lt] at hlong
      obtain ⟨t, ht⟩ := hbegins
      have := hopen rs.length (by omega) r₁ (by simp [← ht])
      simp [hr₁] at this
    have := getElem?_of_isPrefix hbegins later hi hr
    rwa [List.map_append, List.append_assoc] at this
  | fails rs hbegins =>
    have hi : i < rs.length := by
      by_contra hlong
      exact hnone rs.length (not_lt.mp hlong) (by simp)
    exact getElem?_of_isPrefix hbegins _ hi hr

theorem eq_requestsIn {s : Bytes} {rs : List HttpRequest} {status : ParseStatus} {q : HttpParser}
    (h : (HttpParser.append {} s).drain = some (rs, status, q)) : rs = requestsIn s := by
  have hsim := drain_sim ((rep_start []).append s)
  rw [show HttpParser.append { buffer := [] } s = HttpParser.append {} s from rfl, h] at hsim
  revert hsim
  rw [requestsIn, List.nil_append]
  rcases scanner.drain .requestLine s with ⟨rs', ⟨g, w⟩ | _⟩
  · rintro ⟨q', hq, -⟩
    exact congrArg Prod.fst (Option.some.inj hq)
  · rintro ⟨q', hq⟩
    exact congrArg Prod.fst (Option.some.inj hq)

/-- **Requests before the end of the stream.** In a run without an event that drops what it has received,
each request that is complete in the bytes received is handed to `handleRequest`, unless a request before
it closes the connection or the parser has met an error before. -/
theorem received_requests_handled (clientIp : Bytes) (accepted : ℤ) (events : List (Event σ))
    (hok : ∀ e ∈ events, ¬ e.DropsInput) :
    let start : Option ClientConnection := some { clientIp, lastActivity := accepted }
    let stream := (Reactive.run (recvStep sys) start events).2
    let results := (Reactive.run (parseStep sys) start events).2
    let effects := (Reactive.run (onEvent sys) start events).2
    ∀ (rs : List HttpRequest) (status : ParseStatus) (q : HttpParser),
      (HttpParser.append {} stream).drain = some (rs, status, q) →
      ∀ (i : ℕ) (r : HttpRequest), rs[i]? = some r →
        (∀ j < i, ∀ r' : HttpRequest, rs[j]? = some r' → r'.keepAlive = true) →
        (∀ k ≤ i, results[k]? ≠ some .malformed) →
        ∃ requestId : Bytes, (handledRequests effects)[i]? = some { r with requestId } := by
  intro start stream results effects rs status q hdrain i r hr hopen hnone
  have hkeeps : Keeps (Reactive.run (parseStep sys) start events).1 results stream := by
    refine (Reactive.run_related_of_rule (R := Keeps) (fun _ _ => rfl) ?_ ?_ events hok).2
    · have hempty : scanner.drain .requestLine [] = ([], .more .requestLine []) :=
        scanner.drain_of_more rfl
      refine .waits [] (by simp) hempty ?_
      intro c hc
      obtain rfl := Option.some.inj hc
      exact rep_start []
    · exact fun conn l l' e h he => h.onEvent sys he
  have haccounted : Accounted sys effects results :=
    (Reactive.run_related (R := Accounted sys) (fun _ _ => rfl) (accounted_of_idle (by simp))
      (fun conn l rs e h => h.append (accounted_onEvent sys conn e)) events).2
  obtain rfl := eq_requestsIn hdrain
  exact handled_of_accounted sys haccounted (hkeeps.result hr hopen hnone) hnone

/-- A client sends a request and closes its side. -/
def requestThenClose : List (Event Unit) :=
  [.poll false true false 0 [.data (bytes "GET / HTTP/1.1\r\n\r\n")] [] [] (),
    .poll false true false 1 [.data []] [] [] ()]

theorem received_requests_handled_requestThenClose :
    (∀ e ∈ requestThenClose, ¬ e.DropsInput) ∧
    ∃ (r : HttpRequest) (requestId : Bytes),
      (handledRequests (Reactive.run (onEvent noRoutes)
        (some { clientIp := [], lastActivity := 0 }) requestThenClose).2)[0]?
        = some { r with requestId } := by
  have hok : ∀ e ∈ requestThenClose, ¬ e.DropsInput := by
    simp [requestThenClose, Event.DropsInput, BreaksOff, receivedBytes, bytes]
  refine ⟨hok, ?_⟩
  have hmain := received_requests_handled noRoutes [] 0 requestThenClose hok
  have hstream : (Reactive.run (recvStep noRoutes) (some { clientIp := [], lastActivity := 0 })
      requestThenClose).2 = bytes "GET / HTTP/1.1\r\n\r\n" := by decide
  have hresults : (Reactive.run (parseStep noRoutes) (some { clientIp := [], lastActivity := 0 })
      requestThenClose).2[0]? ≠ some .malformed := by decide
  have hcount : ((HttpParser.append {} (bytes "GET / HTTP/1.1\r\n\r\n")).drain.map
      fun t => t.1.length) = some 1 := by decide
  simp only [hstream] at hmain
  obtain ⟨⟨rs, status, q⟩, hdrain, hlen⟩ := Option.map_eq_some_iff.mp hcount
  obtain ⟨r, rfl⟩ := List.length_eq_one_iff.mp hlen
  refine ⟨r, hmain [r] status q hdrain 0 r rfl (by simp) fun k hk => ?_⟩
  obtain rfl := Nat.le_zero.mp hk
  exact hresults

/-- One event: a read that fills the buffer for `recv`, and then end-of-file. -/
def fillThenClose (chunk : Bytes) : List (Event Unit) :=
  [.poll false true false 0 [.data chunk, .data []] [] [] ()]

/-- What is read in such an event is not parsed. -/
theorem run_fillThenClose {chunk : Bytes} (hfull : chunk.length = recvBufferSize)
    (c : ClientConnection) :
    (Reactive.run (recvStep noRoutes) (some c) (fillThenClose chunk)).2 = chunk ∧
    (Reactive.run (parseStep noRoutes) (some c) (fillThenClose chunk)).2 = [] ∧
    (Reactive.run (onEvent noRoutes) (some c) (fillThenClose chunk)).2 = [.closed] := by
  have hge : ¬ chunk.length < recvBufferSize := by omega
  have hne : ¬ chunk = [] := by
    rintro rfl
    simp [recvBufferSize] at hfull
  have hrecv : recvLoop 0 [.data chunk, .data []] c = none := by
    rw [recvLoop, if_neg hne, if_neg hge]
    rfl
  refine ⟨?_, ?_, ?_⟩
  · simp [Reactive.run, fillThenClose, recvStep, received, receivedBytes, hge]
  · simp [Reactive.run, fillThenClose, parseStep, parsed, hrecv]
  · simp [Reactive.run, fillThenClose, onEvent, onReadable, andThen, hrecv]

/-- A request of exactly the size of the buffer for `recv`. -/
def fullRead : Bytes := openLine 16366 ++ bytes " HTTP/1.1" ++ crlf ++ crlf

theorem length_fullRead : fullRead.length = recvBufferSize := by
  simp only [fullRead, openLine, List.length_append, List.length_replicate]
  rfl

theorem exists_requestsIn_fullRead : ∃ r, requestsIn fullRead = [r] := by
  obtain ⟨h, -, hbytes, hbody⟩ := exists_head_openLine 16366
  have hsil := h.silent (by simp [hbody]) []
  have hstep : scanner.step (.body h.head h.contentLength) []
      = .next .requestLine [] (some (h.head.request [])) :=
    body_step h.head (show [].length = h.contentLength from hbody.symm) []
  refine ⟨h.head.request [], ?_⟩
  rw [requestsIn, fullRead, ← hbytes, ← List.append_nil h.toBytes, hsil.drain_eq,
    scanner.drain_of_next hstep, scanner.drain_of_more rfl]
  rfl

/-- **A request that is lost**: it fills the buffer for `recv` exactly, and the next `recv` reports that
the client has closed its side. -/
theorem received_request_lost :
    let start : Option ClientConnection := some { clientIp := [], lastActivity := 0 }
    ∃ rs status q r,
      (HttpParser.append {} (Reactive.run (recvStep noRoutes) start (fillThenClose fullRead)).2).drain
        = some (rs, status, q) ∧ rs[0]? = some r ∧
      (Reactive.run (parseStep noRoutes) start (fillThenClose fullRead)).2 = [] ∧
      handledRequests (Reactive.run (onEvent noRoutes) start (fillThenClose fullRead)).2 = [] := by
  intro start
  obtain ⟨hstream, hresults, heffects⟩ :=
    run_fillThenClose length_fullRead { clientIp := [], lastActivity := 0 }
  obtain ⟨r, hr⟩ := exists_requestsIn_fullRead
  obtain ⟨⟨rs, status, q⟩, hdrain⟩ := Option.isSome_iff_exists.mp
    (drain_isSome (.append fullRead .fresh))
  refine ⟨rs, status, q, r, by rw [hstream, hdrain], ?_, hresults, by rw [heffects]; rfl⟩
  rw [eq_requestsIn hdrain, hr]
  rfl

end ApiGateway.Core
