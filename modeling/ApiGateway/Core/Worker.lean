import ApiGateway.Common.Reactive
import ApiGateway.Core.Exchange
import ApiGateway.Http.Resume

/-!
# A worker's client connection

One client connection, from `accept` to `close`, as the worker's event loop sees it: `onEvent` with
everything it calls. The results of `recv` and `send` are arguments of an event, and what the worker does
(requests handed to `handleRequest`, responses queued, bytes sent, changes of the registered events,
`close`) is logged as effects. The subsystems that connections share are operations on a state `σ`, and
an event brings the state in which it finds them, since other connections and other workers use them in
between.

Reference: `Gateway::Worker` in `src/core/Gateway.cpp`, `include/core/Connection.hpp`.
-/

namespace ApiGateway.Core

open Str Http

/-! ## Connections -/

/-- `ClientConnection`, without the descriptor. -/
structure ClientConnection where
  clientIp : Bytes
  parser : HttpParser := {}
  pendingWrite : Bytes := []
  writeOffset : ℕ := 0
  closeAfterWrite : Bool := false
  lastActivity : ℤ
  offset_le : writeOffset ≤ pendingWrite.length := by simp

/-- What the worker does with a connection. -/
inductive Effect where
  | handled (req : HttpRequest)
  | queued (wire : Bytes) (closeAfter : Bool)
  | sent (chunk : Bytes)
  /-- `EPOLLIN` is registered, and `EPOLLOUT` or not. -/
  | registered (epollout : Bool)
  | closed
deriving DecidableEq

namespace ClientConnection

def hasPendingWrite (c : ClientConnection) : Bool := c.writeOffset < c.pendingWrite.length

/-- Append a response in its wire format. -/
def appendWrite (c : ClientConnection) (wire : Bytes) (closeAfter : Bool) : ClientConnection where
  clientIp := c.clientIp
  parser := c.parser
  pendingWrite := c.pendingWrite ++ wire
  writeOffset := c.writeOffset
  closeAfterWrite := closeAfter
  lastActivity := c.lastActivity
  offset_le := by
    have := c.offset_le
    rw [List.length_append]
    omega

def queueResponse (c : ClientConnection) (resp : HttpResponse) (closeAfter : Bool) :
    ClientConnection × Effect :=
  (c.appendWrite (resp.serialize (!closeAfter)) closeAfter,
    .queued (resp.serialize (!closeAfter)) closeAfter)

/-- The bytes that `send` is given. -/
def unsent (c : ClientConnection) : Bytes := c.pendingWrite.drop c.writeOffset

/-- The next `n` bytes have been sent; `send` does not send more than it is given. -/
def advance (c : ClientConnection) (n : ℕ) : ClientConnection where
  clientIp := c.clientIp
  parser := c.parser
  pendingWrite := c.pendingWrite
  writeOffset := c.writeOffset + (c.unsent.take n).length
  closeAfterWrite := c.closeAfterWrite
  lastActivity := c.lastActivity
  offset_le := by
    have := c.offset_le
    rw [List.length_take, unsent, List.length_drop]
    omega

@[simp] theorem advance_zero (c : ClientConnection) : c.advance 0 = c := rfl

theorem unsent_advance (c : ClientConnection) (n : ℕ) : (c.advance n).unsent = c.unsent.drop n := by
  show c.pendingWrite.drop (c.writeOffset + (c.unsent.take n).length) = c.unsent.drop n
  rw [List.length_take, ← List.drop_drop, ← unsent]
  rcases Nat.le_total n c.unsent.length with h | h
  · rw [Nat.min_eq_left h]
  · rw [Nat.min_eq_right h, List.drop_length, List.drop_eq_nil_of_le h]

theorem advance_advance (c : ClientConnection) (m n : ℕ) :
    (c.advance m).advance n = c.advance (m + n) := by
  have hoffset : (c.unsent.take m).length + ((c.advance m).unsent.take n).length
      = (c.unsent.take (m + n)).length := by
    rw [unsent_advance, List.length_take, List.length_take, List.length_take, List.length_drop]
    omega
  simp only [advance, ← hoffset, Nat.add_assoc]

/-- The state after a complete flush, if the connection stays open. -/
def drained (c : ClientConnection) : ClientConnection :=
  { c with pendingWrite := [], writeOffset := 0, offset_le := le_rfl }

/-- The end of `flushIfPossible`. -/
def flushed (c : ClientConnection) : Option ClientConnection × List Effect :=
  if c.closeAfterWrite then (none, [.closed])
  else (some c.drained, [.registered false])

/-- The loop of `flushIfPossible`. Where the list of results ends, `send` would block. -/
def flushLoop : List SendResult → ClientConnection → Option ClientConnection × List Effect
  | [], c => if c.hasPendingWrite then (some c, [.registered true]) else c.flushed
  | result :: rest, c =>
    if c.hasPendingWrite then
      match result with
      | .sent n =>
        if n = 0 then (none, [.closed])
        else
          let r := flushLoop rest (c.advance n)
          (r.1, .sent (c.unsent.take n) :: r.2)
      | .wouldBlock => (some c, [.registered true])
      | .failed => (none, [.closed])
    else c.flushed

def flushIfPossible (sends : List SendResult) (c : ClientConnection) :
    Option ClientConnection × List Effect :=
  if c.hasPendingWrite then flushLoop sends c else (some c, [])

end ClientConnection

/-! ## Requests -/

structure CachedResponse where
  statusCode : ℤ
  statusText : Bytes
  headers : List (Bytes × Bytes)
  body : Bytes
deriving DecidableEq, Repr

/-- The subsystems that `handleRequest` uses, with a shared state `σ` and routes `ρ`. -/
structure Subsystems (σ ρ : Type*) where
  nextRequestId : σ → Bytes × σ
  toPrometheusText : σ → Bytes
  allow : Bytes → σ → Bool × σ
  matchRoute : Bytes → Option ρ
  cacheable : ρ → Bool
  cacheGet : Bytes → σ → Option CachedResponse × σ
  cachePut : Bytes → CachedResponse → σ → σ
  forwardWithResilience : ρ → HttpRequest → σ → HttpResponse × σ

variable {σ ρ : Type*} (sys : Subsystems σ ρ)

/-- The end of `handleRequest`: forward the request, and cache a response with status 200. -/
def forwardRequest (c : ClientConnection) (req : HttpRequest) (route : ρ) (cacheableRequest : Bool)
    (gw : σ) : (ClientConnection × Effect) × σ :=
  let (resp, gw) := sys.forwardWithResilience route req gw
  let resp := resp.setHeader (bytes "X-Request-Id") req.requestId
  if cacheableRequest && resp.statusCode == 200 then
    let resp := resp.setHeader (bytes "X-Cache") (bytes "MISS")
    let gw := sys.cachePut req.cacheKey
      ⟨resp.statusCode, resp.statusText, resp.headers, resp.body⟩ gw
    (c.queueResponse resp (!req.keepAlive), gw)
  else (c.queueResponse resp (!req.keepAlive), gw)

def handleRequest (c : ClientConnection) (req : HttpRequest) (gw : σ) :
    (ClientConnection × Effect) × σ :=
  if req.path = bytes "/metrics" then
    let resp := HttpResponse.make 200 (bytes "OK") (sys.toPrometheusText gw)
    let resp := resp.setHeader (bytes "Content-Type") (bytes "text/plain; version=0.0.4")
    (c.queueResponse resp (!req.keepAlive), gw)
  else if req.path = bytes "/gateway/health" then
    (c.queueResponse (.make 200 (bytes "OK") (bytes "\x7b\"status\":\"ok\"\x7d")) (!req.keepAlive), gw)
  else
    let (allowed, gw) := sys.allow c.clientIp gw
    if !allowed then
      (c.queueResponse (.make 429 (bytes "Too Many Requests") (bytes "rate limit exceeded"))
        (!req.keepAlive), gw)
    else
      match sys.matchRoute req.path with
      | none =>
        (c.queueResponse (.make 404 (bytes "Not Found") (bytes "no matching route"))
          (!req.keepAlive), gw)
      | some route =>
        let cacheableRequest :=
          sys.cacheable route && (req.method = bytes "GET" || req.method = bytes "HEAD")
        if cacheableRequest then
          match sys.cacheGet req.cacheKey gw with
          | (some cached, gw) =>
            let resp := HttpResponse.make cached.statusCode cached.statusText cached.body
            let resp := { resp with headers := cached.headers }
            let resp := resp.setHeader (bytes "X-Cache") (bytes "HIT")
            let resp := resp.setHeader (bytes "X-Request-Id") req.requestId
            (c.queueResponse resp (!req.keepAlive), gw)
          | (none, gw) => forwardRequest sys c req route cacheableRequest gw
        else forwardRequest sys c req route cacheableRequest gw

/-- The loop over the buffered requests. A request uses up bytes, so that a fuel above the size of the
buffer never runs out (`serveLoop_of_lt`). -/
def serveLoop : ℕ → ClientConnection → σ → ClientConnection × List Effect
  | 0, c, _ => (c, [])
  | fuel + 1, c, gw =>
    match c.parser.parse {} with
    | (.Incomplete, p, _) => ({ c with parser := p }, [])
    | (.Error, p, _) =>
      let (c, e) := ClientConnection.queueResponse { c with parser := p }
        (.make 400 (bytes "Bad Request") (bytes "malformed request")) true
      (c, [e])
    | (.Complete, p, req) =>
      let (requestId, gw) := sys.nextRequestId gw
      let req := { req with requestId }
      let ((c, e), gw) := handleRequest sys { c with parser := p } req gw
      if c.closeAfterWrite then (c, [.handled req, e])
      else
        let (c, es) := serveLoop fuel c gw
        (c, .handled req :: e :: es)

/-! ## Events -/

/-- What `recv` can return. No bytes mean that the peer has closed its side. -/
inductive RecvResult where
  | data (chunk : Bytes)
  | wouldBlock
  | interrupted
  | failed
deriving DecidableEq, Repr

/-- The size of the buffer for `recv`. -/
def recvBufferSize : ℕ := 16384

/-- The loop over `recv`; `none` means that the connection is closed. Where the list of results ends,
`recv` would block. -/
def recvLoop (now : ℤ) : List RecvResult → ClientConnection → Option ClientConnection
  | [], c => some c
  | .data chunk :: rest, c =>
    if chunk = [] then none
    else
      let c := { c with parser := c.parser.append chunk, lastActivity := now }
      if chunk.length < recvBufferSize then some c else recvLoop now rest c
  | .wouldBlock :: _, c => some c
  | .interrupted :: rest, c => recvLoop now rest c
  | .failed :: _, _ => none

/-- An event for the connection: `epoll_wait` reports it, or the idle connections are swept. -/
inductive Event (σ : Type*) where
  | poll (hangup readable writable : Bool) (now : ℤ) (recvs : List RecvResult)
      (sends sendsLater : List SendResult) (gw : σ)
  | sweep (now : ℤ)

/-- Go on with a connection that is still open. -/
def andThen (r : Option ClientConnection × List Effect)
    (f : ClientConnection → Option ClientConnection × List Effect) :
    Option ClientConnection × List Effect :=
  match r.1 with
  | none => r
  | some c => ((f c).1, r.2 ++ (f c).2)

def onReadable (now : ℤ) (recvs : List RecvResult) (sends : List SendResult) (gw : σ)
    (c : ClientConnection) : Option ClientConnection × List Effect :=
  match recvLoop now recvs c with
  | none => (none, [.closed])
  | some c =>
    let (c, es) := serveLoop sys (c.parser.buffer.length + 1) c gw
    andThen (some c, es) (ClientConnection.flushIfPossible sends)

/-- Connections are closed after 60 seconds without a byte from the client. -/
def kIdleTimeout : ℤ := 60 * 10 ^ 9

/-- `onEvent`, or the connection's part of `sweepIdleConnections`. -/
def onEvent (conn : Option ClientConnection) : Event σ → Option ClientConnection × List Effect
  | .poll hangup readable writable now recvs sends sendsLater gw =>
    andThen (conn, []) fun c =>
      if hangup then (none, [.closed])
      else
        andThen (if readable then onReadable sys now recvs sends gw c else (some c, [])) fun c =>
          if writable then c.flushIfPossible sendsLater else (some c, [])
  | .sweep now =>
    andThen (conn, []) fun c =>
      if !c.hasPendingWrite && kIdleTimeout < now - c.lastActivity then (none, [.closed])
      else (some c, [])

/-! ## What the stages of an event can do -/

/-- Every exit of `handleRequest` queues one response, which closes the connection if the request does
not keep it alive. -/
theorem exists_handleRequest (c : ClientConnection) (req : HttpRequest) (gw : σ) :
    ∃ resp gw', handleRequest sys c req gw = (c.queueResponse resp (!req.keepAlive), gw') := by
  have hforward : ∀ route cacheableRequest gw, ∃ resp gw',
      forwardRequest sys c req route cacheableRequest gw
        = (c.queueResponse resp (!req.keepAlive), gw') := by
    intro route cacheableRequest gw
    unfold forwardRequest
    dsimp only
    split
    · exact ⟨_, _, rfl⟩
    · exact ⟨_, _, rfl⟩
  unfold handleRequest
  dsimp only
  split
  · exact ⟨_, _, rfl⟩
  split
  · exact ⟨_, _, rfl⟩
  split
  · exact ⟨_, _, rfl⟩
  split
  · exact ⟨_, _, rfl⟩
  split
  · split
    · exact ⟨_, _, rfl⟩
    · exact hforward _ _ _
  · exact hforward _ _ _

/-- The answer to bytes that are no request. -/
def badRequest : HttpResponse := .make 400 (bytes "Bad Request") (bytes "malformed request")

/-- **A round of the loop over the requests**, case by case: nothing to do, a parse error, a request that
closes the connection, or one after which the loop goes on. -/
theorem serveLoop_succ (fuel : ℕ) (c : ClientConnection) (gw : σ) :
    (∃ p out, c.parser.parse {} = (.Incomplete, p, out) ∧
      serveLoop sys (fuel + 1) c gw = ({ c with parser := p }, [])) ∨
    (∃ p out, c.parser.parse {} = (.Error, p, out) ∧
      serveLoop sys (fuel + 1) c gw
        = (({ c with parser := p } : ClientConnection).appendWrite (badRequest.serialize false) true,
          [.queued (badRequest.serialize false) true])) ∨
    ∃ p req, ∃ resp : HttpResponse, ∃ gw', c.parser.parse {} = (.Complete, p, req) ∧
      handleRequest sys { c with parser := p } { req with requestId := (sys.nextRequestId gw).1 }
          (sys.nextRequestId gw).2
        = (ClientConnection.queueResponse { c with parser := p } resp (!req.keepAlive), gw') ∧
      ((req.keepAlive = false ∧ serveLoop sys (fuel + 1) c gw
          = (({ c with parser := p } : ClientConnection).appendWrite (resp.serialize false) true,
            [.handled { req with requestId := (sys.nextRequestId gw).1 },
              .queued (resp.serialize false) true])) ∨
        (req.keepAlive = true ∧
          let c' := ({ c with parser := p } : ClientConnection).appendWrite (resp.serialize true) false
          serveLoop sys (fuel + 1) c gw = ((serveLoop sys fuel c' gw').1,
            .handled { req with requestId := (sys.nextRequestId gw).1 }
              :: .queued (resp.serialize true) false :: (serveLoop sys fuel c' gw').2))) := by
  rw [serveLoop]
  rcases hparse : c.parser.parse {} with ⟨_ | _ | _, p, out⟩
  · exact .inl ⟨p, out, rfl, rfl⟩
  · obtain ⟨resp, gw', heq⟩ := exists_handleRequest sys { c with parser := p }
      { out with requestId := (sys.nextRequestId gw).1 } (sys.nextRequestId gw).2
    refine .inr (.inr ⟨p, out, resp, gw', rfl, heq, ?_⟩)
    simp only [heq, ClientConnection.queueResponse]
    cases hkeep : out.keepAlive with
    | false => exact .inl ⟨rfl, rfl⟩
    | true => exact .inr ⟨rfl, rfl⟩
  · exact .inr (.inl ⟨p, out, rfl, rfl⟩)

/-- **The rule for the loop over the requests.** `P` holds between two rounds, of the connection and of the
effects up to then, and `R` when the loop has ended. -/
theorem serveLoop_rule {P R : ClientConnection → List Effect → Prop} (hfuel : ∀ {c l}, P c l → R c l)
    (hwait : ∀ {c l p out}, P c l → c.parser.parse {} = (.Incomplete, p, out) →
      R { c with parser := p } l)
    (hbad : ∀ {c l p out}, P c l → c.parser.parse {} = (.Error, p, out) →
      R (({ c with parser := p } : ClientConnection).appendWrite (badRequest.serialize false) true)
        (l ++ [.queued (badRequest.serialize false) true]))
    (hlast : ∀ {c l p req} (resp : HttpResponse) (id : Bytes), P c l →
      c.parser.parse {} = (.Complete, p, req) →
      R (({ c with parser := p } : ClientConnection).appendWrite (resp.serialize false) true)
        (l ++ [.handled { req with requestId := id }, .queued (resp.serialize false) true]))
    (hnext : ∀ {c l p req} (resp : HttpResponse) (id : Bytes), P c l →
      c.parser.parse {} = (.Complete, p, req) →
      P (({ c with parser := p } : ClientConnection).appendWrite (resp.serialize true) false)
        (l ++ [.handled { req with requestId := id }, .queued (resp.serialize true) false]))
    (fuel : ℕ) {c : ClientConnection} {l : List Effect} (h : P c l) (gw : σ) :
    R (serveLoop sys fuel c gw).1 (l ++ (serveLoop sys fuel c gw).2) := by
  induction fuel generalizing c l gw with
  | zero =>
    rw [serveLoop, List.append_nil]
    exact hfuel h
  | succ fuel ih =>
    rcases serveLoop_succ sys fuel c gw with ⟨p, out, hparse, heq⟩ | ⟨p, out, hparse, heq⟩ |
      ⟨p, req, resp, gw', hparse, -, ⟨-, heq⟩ | ⟨-, heq⟩⟩
    · rw [heq, List.append_nil]
      exact hwait h hparse
    · rw [heq]
      exact hbad h hparse
    · rw [heq]
      exact hlast resp _ h hparse
    · have hrest := ih (hnext resp (sys.nextRequestId gw).1 h hparse) gw'
      rw [List.append_assoc] at hrest
      rw [heq]
      exact hrest

/-- The fuel does not matter as long as there is enough of it. -/
theorem serveLoop_of_lt {fuel : ℕ} {c : ClientConnection} (hreached : Reached c.parser)
    (hfuel : c.parser.buffer.length < fuel) (gw : σ) :
    serveLoop sys (fuel + 1) c gw = serveLoop sys fuel c gw := by
  induction fuel generalizing c gw with
  | zero => omega
  | succ fuel ih =>
    rw [serveLoop]
    conv_rhs => rw [serveLoop]
    rcases hparse : c.parser.parse {} with ⟨_ | _ | _, p, out⟩
    · rfl
    · obtain ⟨resp, gw', heq⟩ := exists_handleRequest sys { c with parser := p }
        { out with requestId := (sys.nextRequestId gw).1 } (sys.nextRequestId gw).2
      have hp : Reached p := by
        have := Reached.parse {} hreached
        rwa [hparse] at this
      have hlt := hreached.length_lt hparse
      simp only [heq, ClientConnection.queueResponse]
      rw [ih (by exact hp) (by simpa [ClientConnection.appendWrite] using by omega)]
    · rfl

/-- Receiving appends to the parser's buffer, and changes nothing else. -/
theorem exists_of_recvLoop {now : ℤ} {recvs : List RecvResult} {c c' : ClientConnection}
    (h : recvLoop now recvs c = some c') :
    ∃ data lastActivity, c' = { c with parser := c.parser.append data, lastActivity } := by
  have hsame : ∀ c : ClientConnection,
      c = { c with parser := c.parser.append [], lastActivity := c.lastActivity } := by
    intro c
    rw [HttpParser.append, List.append_nil]
  induction recvs generalizing c with
  | nil => exact ⟨[], _, (Option.some.inj h).symm.trans (hsame c)⟩
  | cons r rest ih =>
    cases r with
    | data chunk =>
      rw [recvLoop] at h
      split at h
      · simp at h
      · dsimp only at h
        split at h
        · exact ⟨chunk, now, (Option.some.inj h).symm⟩
        · obtain ⟨data, t, rfl⟩ := ih h
          refine ⟨chunk ++ data, t, ?_⟩
          simp only [HttpParser.append, List.append_assoc]
    | wouldBlock => exact ⟨[], _, (Option.some.inj h).symm.trans (hsame c)⟩
    | interrupted => exact ih h
    | failed => simp [recvLoop] at h

/-- The rule for stages one after the other. -/
theorem andThen_rule {Q : Option ClientConnection → List Effect → Prop}
    {r : Option ClientConnection × List Effect}
    {f : ClientConnection → Option ClientConnection × List Effect} (hr : Q r.1 r.2)
    (hf : ∀ c, r.1 = some c → Q (f c).1 (r.2 ++ (f c).2)) :
    Q (andThen r f).1 (andThen r f).2 := by
  rcases r with ⟨_ | c, es⟩
  · exact hr
  · exact hf c rfl

/-- How a flush can end, after the pieces `chunks` with `n` bytes: it waits because there are more bytes,
closes the connection, or has sent everything on a connection that stays open. -/
inductive FlushEnds (c : ClientConnection) (n : ℕ) (chunks : List Bytes) :
    Option ClientConnection × List Effect → Prop
  | waits (h : (c.advance n).hasPendingWrite = true) :
    FlushEnds c n chunks (some (c.advance n), chunks.map .sent ++ [.registered true])
  | closes (h : (c.advance n).hasPendingWrite = true ∨ c.closeAfterWrite = true) :
    FlushEnds c n chunks (none, chunks.map .sent ++ [.closed])
  | drains (h : (c.advance n).hasPendingWrite = false) (hopen : c.closeAfterWrite = false) :
    FlushEnds c n chunks (some c.drained, chunks.map .sent ++ [.registered false])

theorem FlushEnds.of_flushed {c : ClientConnection} (h : c.hasPendingWrite = false) :
    FlushEnds c 0 [] c.flushed := by
  unfold ClientConnection.flushed
  split
  · exact .closes (.inr ‹_›)
  · exact .drains h (by simpa using ‹¬ c.closeAfterWrite = true›)

theorem FlushEnds.sent {c : ClientConnection} {m n : ℕ} {chunks : List Bytes}
    {r : Option ClientConnection × List Effect} (h : FlushEnds (c.advance m) n chunks r) :
    FlushEnds c (m + n) (c.unsent.take m :: chunks) (r.1, .sent (c.unsent.take m) :: r.2) := by
  cases h with
  | waits h =>
    rw [c.advance_advance] at h ⊢
    exact .waits h
  | closes h =>
    rw [c.advance_advance] at h
    exact .closes h
  | drains h hopen =>
    rw [c.advance_advance] at h
    exact .drains h hopen

/-- **What a flush can do**: it sends some of the pending bytes, in pieces, and ends in one of three
ways. -/
theorem flushLoop_ends (sends : List SendResult) (c : ClientConnection) :
    ∃ (chunks : List Bytes) (n : ℕ), chunks.flatten = c.unsent.take n ∧
      FlushEnds c n chunks (ClientConnection.flushLoop sends c) := by
  induction sends generalizing c with
  | nil =>
    refine ⟨[], 0, rfl, ?_⟩
    unfold ClientConnection.flushLoop
    split
    · exact .waits ‹_›
    · exact .of_flushed (by simpa using ‹¬ c.hasPendingWrite = true›)
  | cons result rest ih =>
    unfold ClientConnection.flushLoop
    by_cases hpending : c.hasPendingWrite = true
    · rw [if_pos hpending]
      cases result with
      | sent m =>
        by_cases hm : m = 0
        · exact ⟨[], 0, rfl, by simpa [hm] using .closes (.inl hpending)⟩
        · obtain ⟨chunks, n, hflatten, hends⟩ := ih (c.advance m)
          refine ⟨c.unsent.take m :: chunks, m + n, ?_, by simpa [hm] using hends.sent⟩
          rw [List.flatten_cons, hflatten, c.unsent_advance, List.take_add]
      | wouldBlock => exact ⟨[], 0, rfl, .waits hpending⟩
      | failed => exact ⟨[], 0, rfl, .closes (.inl hpending)⟩
    · rw [if_neg hpending]
      exact ⟨[], 0, rfl, .of_flushed (by simpa using hpending)⟩

theorem onEvent_none (e : Event σ) : onEvent sys none e = (none, []) := by
  cases e <;> rfl

/-- **The rule for an event**: what holds of an open connection before it holds after it, if closing
keeps it, receiving and serving requests keep it, and flushing keeps it. -/
theorem onEvent_rule {Q : Option ClientConnection → List Effect → Prop} {c : ClientConnection}
    {e : Event σ} (hinit : Q (some c) []) (hclose : Q none [.closed])
    (hserve : ∀ {writable now recvs sends sendsLater gw c'},
      e = .poll false true writable now recvs sends sendsLater gw → recvLoop now recvs c = some c' →
      Q (some (serveLoop sys (c'.parser.buffer.length + 1) c' gw).1)
        (serveLoop sys (c'.parser.buffer.length + 1) c' gw).2)
    (hflush : ∀ sends {c es}, Q (some c) es →
      Q (c.flushIfPossible sends).1 (es ++ (c.flushIfPossible sends).2)) :
    Q (onEvent sys (some c) e).1 (onEvent sys (some c) e).2 := by
  cases e with
  | sweep now =>
    refine andThen_rule hinit fun c' hc' => ?_
    obtain rfl := Option.some.inj hc'
    split
    · exact hclose
    · exact hinit
  | poll hangup readable writable now recvs sends sendsLater gw =>
    refine andThen_rule hinit fun c' hc' => ?_
    obtain rfl := Option.some.inj hc'
    cases hangup with
    | true => exact hclose
    | false =>
      have hread : ∀ r, r = (if readable then onReadable sys now recvs sends gw c else (some c, [])) →
          Q r.1 r.2 := by
        rintro r rfl
        cases readable with
        | false => exact hinit
        | true =>
          rw [if_pos rfl]
          unfold onReadable
          cases hrecv : recvLoop now recvs c with
          | none => exact hclose
          | some c₁ =>
            refine andThen_rule (hserve rfl hrecv) fun c₂ hc₂ => ?_
            obtain rfl := Option.some.inj hc₂
            exact hflush sends (hserve rfl hrecv)
      rw [if_neg Bool.false_ne_true, List.nil_append]
      refine andThen_rule (hread _ rfl) fun c₁ hc₁ => ?_
      have hbefore := hread _ rfl
      rw [hc₁] at hbefore
      cases writable with
      | false => simpa using hbefore
      | true => exact hflush sendsLater hbefore

/-! ## The parser of a connection -/

/-- The parser of a connection, if it is open, can be reached. -/
def ParserReached (conn : Option ClientConnection) : Prop := ∀ c, conn = some c → Reached c.parser

theorem reached_serveLoop (fuel : ℕ) {c : ClientConnection} (h : Reached c.parser) (gw : σ) :
    Reached (serveLoop sys fuel c gw).1.parser := by
  have hparsed : ∀ {c : ClientConnection} {status p out}, Reached c.parser →
      c.parser.parse {} = (status, p, out) → Reached p := by
    intro c status p out hc hparse
    have := Reached.parse {} hc
    rwa [hparse] at this
  exact serveLoop_rule sys (P := fun c _ => Reached c.parser) (R := fun c _ => Reached c.parser) id
    hparsed hparsed (fun _ _ => hparsed) (fun _ _ => hparsed) fuel (l := []) h gw

/-- A flush leaves the parser alone. -/
theorem parser_of_flushIfPossible {sends : List SendResult} {c c' : ClientConnection}
    (h : (c.flushIfPossible sends).1 = some c') : c'.parser = c.parser := by
  unfold ClientConnection.flushIfPossible at h
  split at h
  · obtain ⟨chunks, n, -, hends⟩ := flushLoop_ends sends c
    generalize ClientConnection.flushLoop sends c = r at hends h
    cases hends with
    | waits =>
      obtain rfl := Option.some.inj h
      rfl
    | closes => simp at h
    | drains =>
      obtain rfl := Option.some.inj h
      rfl
  · obtain rfl := Option.some.inj h
    rfl

theorem parserReached_flushIfPossible (sends : List SendResult) {c : ClientConnection}
    (h : Reached c.parser) : ParserReached (c.flushIfPossible sends).1 := by
  intro c' hc'
  rw [parser_of_flushIfPossible hc']
  exact h

/-- **The parser of a connection can be reached**, whatever has happened to the connection: what is proved
of such parsers holds of the parsers that the gateway has. -/
theorem parserReached_run (clientIp : Bytes) (accepted : ℤ) (events : List (Event σ)) :
    ParserReached (Reactive.run (onEvent sys)
      (some { clientIp, lastActivity := accepted }) events).1 := by
  refine Reactive.run_invariant (I := fun conn _ => ParserReached conn) ?_ ?_ events
  · exact fun c hc => Option.some.inj hc ▸ .fresh
  · intro conn l e h
    cases conn with
    | none => cases e <;> exact fun c hc => by simp [onEvent, andThen] at hc
    | some c =>
      refine onEvent_rule sys (Q := fun conn _ => ParserReached conn) h (fun c hc => by simp at hc) ?_ ?_
      · intro writable now recvs sends sendsLater gw c' _ hrecv c'' hc''
        obtain rfl := Option.some.inj hc''
        obtain ⟨data, t, rfl⟩ := exists_of_recvLoop hrecv
        exact reached_serveLoop sys _ (.append data (h c rfl)) gw
      · exact fun sends c es hc => parserReached_flushIfPossible sends (hc c rfl)

end ApiGateway.Core
