import ApiGateway.Common.Reactive
import ApiGateway.Http.Message
import ApiGateway.Network.TcpServer

/-!
# The metrics server

`runMetricsServer`, as a machine that takes one result of a system call at a time. It answers every client with
the metrics of that moment, without reading a request, and one client after the other. The clients are those that
`accept` has returned (`MetricsServer.arrive`), and what each has got is read off the calls on its descriptor
(`sessions`): always a beginning of its answer, and all of it before `close` unless a `send` failed
(`clients_get_answers`). Clients' sockets do not block, so that a `send` to a client that does not read fails
too.

Reference: `Gateway::runMetricsServer` in `src/core/Gateway.cpp`, `TcpServer::acceptAll` in
`src/network/TcpServer.cpp`.
-/

namespace ApiGateway.Core

open Str Http Network Descriptors

/-! ## The model -/

/-- The answer to a client. -/
def metricsResponse (text : Bytes) : HttpResponse :=
  let response := HttpResponse.make 200 (bytes "OK") text
  let response := response.setHeader (bytes "Content-Type") (bytes "text/plain; version=0.0.4; charset=utf-8")
  response.setHeader (bytes "Connection") (bytes "close")

def metricsWire (text : Bytes) : Bytes := (metricsResponse text).serialize false

/-- Where the thread is. -/
inductive Serving where
  | unstarted
  /-- At the top of the `while` loop. -/
  | polling (listenFd : ℤ)
  /-- In `acceptAll`, before `accept`. -/
  | accepting (listenFd : ℤ)
  /-- In the loop over `send`. -/
  | sending (listenFd fd : ℤ) (wire : Bytes) (sent : ℕ)
  /-- The thread has ended; the socket of a constructor that has thrown is still open. -/
  | ended (lost : Option ℤ)
deriving DecidableEq, Repr

structure MetricsServer where
  metricsPort : ℤ
  phase : Serving := .unstarted
deriving DecidableEq, Repr

/-- What is logged. -/
inductive MetricsAct where
  | call (c : Call ℤ Unit)
  /-- `accept` has returned a client's descriptor. -/
  | accepted (fd : ℤ)
  | sent (fd : ℤ) (chunk : Bytes)
  | sendFailed (fd : ℤ)
  | info (msg fields : Bytes)
  | error (msg : Bytes)

/-- What `accept` can return. -/
inductive ClientAccept where
  | accepted (fd : ℤ)
  | interrupted
  | failed
deriving DecidableEq, Repr

inductive MetricsSignal where
  | create (results : ServerResults)
  /-- The value of `running_`, and what `poll` returns. -/
  | poll (running : Bool) (ready : ℤ)
  /-- What `accept` returns, and the text of `toPrometheusText`. -/
  | accept (result : ClientAccept) (text : Bytes)
  /-- What `send` returns. -/
  | send (n : ℤ)

namespace MetricsServer

/-- The beginning of the thread. -/
def create (s : MetricsServer) (r : ServerResults) : MetricsServer × List MetricsAct :=
  match TcpServer.create r with
  | (.ok fd, calls) =>
    ({ s with phase := .polling fd },
      calls.map .call ++ [.info (bytes "metrics server started") (bytes "\"port\":" ++ decimalInt s.metricsPort)])
  | (.error what, calls) =>
    ({ s with phase := .ended (TcpServer.lost calls) },
      calls.map .call ++ [.error (bytes "metrics server stopped: " ++ what)])

/-- One round of the loop over `send`, which does not send more than it is given. -/
def send (s : MetricsServer) (listenFd fd : ℤ) (wire : Bytes) (sent : ℕ) (n : ℤ) :
    MetricsServer × List MetricsAct :=
  if n ≤ 0 then
    ({ s with phase := .accepting listenFd }, [.sendFailed fd, .call (.closed fd)])
  else
    let chunk := (wire.drop sent).take n.toNat
    if sent + chunk.length < wire.length then
      ({ s with phase := .sending listenFd fd wire (sent + chunk.length) }, [.sent fd chunk])
    else
      ({ s with phase := .accepting listenFd }, [.sent fd chunk, .call (.closed fd)])

def step (s : MetricsServer) : MetricsSignal → MetricsServer × List MetricsAct
  | .create r =>
    match s.phase with
    | .unstarted => s.create r
    | _ => (s, [])
  | .poll running ready =>
    match s.phase with
    | .polling listenFd =>
      if !running then ({ s with phase := .ended none }, [.call (.closed listenFd)])
      else if ready ≤ 0 then (s, [.call (.used listenFd)])
      else ({ s with phase := .accepting listenFd }, [.call (.used listenFd)])
    | _ => (s, [])
  | .accept result text =>
    match s.phase with
    | .accepting listenFd =>
      match result with
      | .accepted fd =>
        ({ s with phase := .sending listenFd fd (metricsWire text) 0 }, [.accepted fd])
      | .interrupted => (s, [])
      | .failed => ({ s with phase := .polling listenFd }, [])
    | _ => (s, [])
  | .send n =>
    match s.phase with
    | .sending listenFd fd wire sent => s.send listenFd fd wire sent n
    | _ => (s, [])

/-- The client that comes with a signal, and the text of the metrics then: while the thread is in `accept`. -/
def comes (s : MetricsServer) : MetricsSignal → List (ℤ × Bytes)
  | .accept (.accepted fd) text =>
    match s.phase with
    | .accepting _ => [(fd, text)]
    | _ => []
  | _ => []

/-- The same steps, with the clients for a log. -/
def arrive (s : MetricsServer) (e : MetricsSignal) : MetricsServer × List (ℤ × Bytes) := ((s.step e).1, s.comes e)

end MetricsServer

/-! ## Clients -/

/-- What has been done with a client's descriptor. -/
structure Session where
  fd : ℤ
  received : Bytes := []
  failed : Bool := false
  closed : Bool := false
deriving DecidableEq, Repr

namespace Session

/-- A call on a descriptor is one on the open session with that number. -/
def onOpen (fd : ℤ) (f : Session → Session) : List Session → List Session
  | [] => []
  | s :: ss => if s.fd = fd ∧ s.closed = false then f s :: ss else s :: onOpen fd f ss

/-- Read on; the newest client comes first. -/
def next (ss : List Session) : MetricsAct → List Session
  | .accepted fd => { fd } :: ss
  | .sent fd chunk => onOpen fd (fun s => { s with received := s.received ++ chunk }) ss
  | .sendFailed fd => onOpen fd (fun s => { s with failed := true }) ss
  | .call (.closed fd) => onOpen fd (fun s => { s with closed := true }) ss
  | _ => ss

theorem onOpen_of_closed (fd : ℤ) (f : Session → Session) {ss : List Session}
    (h : ∀ s ∈ ss, s.closed = true) : onOpen fd f ss = ss := by
  induction ss with
  | nil => rfl
  | cons s ss ih =>
    obtain ⟨hs, hss⟩ := List.forall_mem_cons.mp h
    rw [onOpen, if_neg (by simp [hs]), ih hss]

theorem onOpen_newest {fd : ℤ} {s : Session} (hfd : s.fd = fd) (h : s.closed = false) (f : Session → Session)
    (ss : List Session) : onOpen fd f (s :: ss) = f s :: ss := by
  rw [onOpen, if_pos ⟨hfd, h⟩]

end Session

/-- The clients that have been accepted, the newest first. -/
def sessions (log : List MetricsAct) : List Session := log.foldl Session.next []

theorem sessions_append (log acts : List MetricsAct) :
    sessions (log ++ acts) = acts.foldl Session.next (sessions log) := List.foldl_append

/-- What a client gets that came when the metrics had this text. -/
structure Scraped (client : ℤ × Bytes) (session : Session) : Prop where
  fd_eq : session.fd = client.1
  isPrefix : session.received <+: metricsWire client.2
  complete : session.closed = true → session.failed = false → session.received = metricsWire client.2

/-- The session of a client that has got the first `sent` bytes of its answer. -/
def Session.underWay (fd : ℤ) (wire : Bytes) (sent : ℕ) : Session where
  fd := fd
  received := wire.take sent

/-- These clients have been served, and their descriptors are closed. -/
structure AllScraped (clients : List (ℤ × Bytes)) (ss : List Session) : Prop where
  served : List.Forall₂ Scraped clients ss
  closed : ∀ session ∈ ss, session.closed = true

theorem AllScraped.cons {client : ℤ × Bytes} {session : Session} {clients : List (ℤ × Bytes)} {ss : List Session}
    (h : AllScraped clients ss) (hserved : Scraped client session) (hclosed : session.closed = true) :
    AllScraped (client :: clients) (session :: ss) :=
  ⟨.cons hserved h.served, List.forall_mem_cons.mpr ⟨hclosed, h.closed⟩⟩

/-- **Every client but the one that is being answered is done.** The newest client comes first. -/
def Serves (s : MetricsServer) (log : List MetricsAct) (clients : List (ℤ × Bytes)) : Prop :=
  match s.phase with
  | .sending _ fd wire sent => ∃ text older ss, clients = (fd, text) :: older ∧ metricsWire text = wire ∧
      sent < wire.length ∧ sessions log = .underWay fd wire sent :: ss ∧ AllScraped older ss
  | _ => AllScraped clients (sessions log)

theorem metricsWire_length_pos (text : Bytes) : 0 < (metricsWire text).length := by
  simp [metricsWire, HttpResponse.serialize, HttpResponse.serializeHead, HttpResponse.statusLine, bytes]

namespace Serves

variable {s : MetricsServer} {log : List MetricsAct} {clients : List (ℤ × Bytes)}

theorem send (h : Serves s log clients) {listenFd fd : ℤ} {wire : Bytes} {sent : ℕ}
    (hphase : s.phase = .sending listenFd fd wire sent) (n : ℤ) :
    Serves (s.send listenFd fd wire sent n).1 (log ++ (s.send listenFd fd wire sent n).2) clients := by
  simp only [Serves, hphase] at h
  obtain ⟨text, older, ss, rfl, hwire, hless, hsessions, holder⟩ := h
  unfold MetricsServer.send
  split
  · -- the client is left with what it has
    have hleft : sessions (log ++ [.sendFailed fd, .call (.closed fd)])
        = { fd, received := wire.take sent, failed := true, closed := true } :: ss := by
      rw [sessions_append, hsessions]
      simp [Session.next, Session.onOpen_newest, Session.underWay]
    simp only [Serves, hleft]
    exact holder.cons ⟨rfl, hwire ▸ List.take_prefix sent wire, by simp⟩ rfl
  have hreceived : wire.take sent ++ (wire.drop sent).take n.toNat
      = wire.take (sent + ((wire.drop sent).take n.toNat).length) := by
    rw [List.take_add, List.length_take, List.length_drop, List.take_eq_take_min (i := n.toNat), List.length_drop]
  simp only
  generalize (wire.drop sent).take n.toNat = chunk at hreceived
  split
  · rename_i hmore
    refine ⟨text, older, ss, rfl, hwire, hmore, ?_, holder⟩
    rw [sessions_append, hsessions]
    simp [Session.next, Session.onOpen_newest, Session.underWay, hreceived]
  · rename_i hall
    have hwhole : wire.take sent ++ chunk = metricsWire text := by
      rw [hreceived, hwire, List.take_of_length_le (by omega)]
    have hdone : sessions (log ++ [.sent fd chunk, .call (.closed fd)])
        = { fd, received := metricsWire text, closed := true } :: ss := by
      rw [sessions_append, hsessions]
      simp [Session.next, Session.onOpen_newest, Session.underWay, hwhole]
    simp only [Serves, hdone]
    exact holder.cons ⟨rfl, List.prefix_refl _, fun _ _ => rfl⟩ rfl

/-- Between two clients there is nothing to read off the log. -/
theorem between (h : Serves s log clients)
    (hbefore : ∀ listenFd fd wire sent, s.phase ≠ .sending listenFd fd wire sent) {phase : Serving}
    (hafter : ∀ listenFd fd wire sent, phase ≠ .sending listenFd fd wire sent) (acts : List MetricsAct)
    (hacts : ∀ a ∈ acts, ∀ ss, (∀ session ∈ ss, session.closed = true) → Session.next ss a = ss) :
    Serves { s with phase } (log ++ acts) clients := by
  have hall : AllScraped clients (sessions log) := by
    unfold Serves at h
    split at h
    · rename_i hphase
      exact absurd hphase (hbefore _ _ _ _)
    · exact h
  have hsame : sessions (log ++ acts) = sessions log := by
    rw [sessions_append]
    have hclosed := hall.closed
    generalize sessions log = ss at hclosed
    induction acts with
    | nil => rfl
    | cons a acts ih =>
      obtain ⟨ha, hacts⟩ := List.forall_mem_cons.mp hacts
      rw [List.foldl_cons, ha ss hclosed]
      exact ih hacts
  unfold Serves
  split
  · rename_i hphase
    exact absurd hphase (hafter _ _ _ _)
  · rwa [hsame]

/-- No call on a descriptor changes a session that is closed. -/
theorem next_call {ss : List Session} (hclosed : ∀ session ∈ ss, session.closed = true) (c : Call ℤ Unit) :
    Session.next ss (.call c) = ss := by
  cases c with
  | opened fd target => rfl
  | used fd => rfl
  | closed fd => exact Session.onOpen_of_closed fd _ hclosed

theorem create (h : Serves s log clients) (hphase : s.phase = .unstarted) (r : ServerResults) :
    Serves (s.create r).1 (log ++ (s.create r).2) clients := by
  have hcalls : ∀ (calls : List (Call ℤ Unit)) (last : MetricsAct), (∀ ss, Session.next ss last = ss) →
      ∀ a ∈ calls.map .call ++ [last], ∀ ss, (∀ session ∈ ss, session.closed = true) → Session.next ss a = ss := by
    intro calls last hlast a ha ss hclosed
    rcases List.mem_append.mp ha with ha | ha
    · obtain ⟨c, -, rfl⟩ := List.mem_map.mp ha
      exact next_call hclosed c
    · obtain rfl := List.mem_singleton.mp ha
      exact hlast ss
  unfold MetricsServer.create
  split
  · exact h.between (by simp [hphase]) (by simp) _ (hcalls _ _ fun _ => rfl)
  · exact h.between (by simp [hphase]) (by simp) _ (hcalls _ _ fun _ => rfl)

theorem poll (h : Serves s log clients) (running : Bool) (ready : ℤ) :
    Serves (s.step (.poll running ready)).1 (log ++ (s.step (.poll running ready)).2) clients := by
  cases hphase : s.phase with
  | polling listenFd =>
    have hcall : ∀ c, ∀ a ∈ [MetricsAct.call c], ∀ ss, (∀ session ∈ ss, session.closed = true) →
        Session.next ss a = ss := by
      intro c a ha ss hclosed
      obtain rfl := List.mem_singleton.mp ha
      exact next_call hclosed c
    simp only [MetricsServer.step, hphase]
    split
    · exact h.between (by simp [hphase]) (by simp) _ (hcall _)
    split
    · exact h.between (by simp [hphase]) (by simp [hphase]) _ (hcall _)
    · exact h.between (by simp [hphase]) (by simp) _ (hcall _)
  | _ => simpa only [MetricsServer.step, hphase, List.append_nil] using h

/-- **One step.** The client that comes with it is the newest. -/
theorem step (h : Serves s log clients) (e : MetricsSignal) :
    Serves (s.step e).1 (log ++ (s.step e).2) (s.comes e ++ clients) := by
  have hstay : Serves s (log ++ []) ([] ++ clients) := by rwa [List.append_nil]
  cases e with
  | create r =>
    cases hphase : s.phase with
    | unstarted =>
      simp only [MetricsServer.step, hphase]
      exact h.create hphase r
    | _ => simpa only [MetricsServer.step, MetricsServer.comes, hphase] using hstay
  | poll running ready => exact h.poll running ready
  | accept result text =>
    cases hphase : s.phase with
    | accepting listenFd =>
      cases result with
      | accepted fd =>
        have hall : AllScraped clients (sessions log) := by simpa only [Serves, hphase] using h
        simp only [MetricsServer.step, MetricsServer.comes, hphase, Serves]
        refine ⟨text, clients, sessions log, rfl, rfl, metricsWire_length_pos text, ?_, hall⟩
        rw [sessions_append]
        rfl
      | interrupted => simpa only [MetricsServer.step, MetricsServer.comes, hphase] using hstay
      | failed =>
        simp only [MetricsServer.step, MetricsServer.comes, hphase]
        exact h.between (by simp [hphase]) (by simp) [] (by simp)
    | _ =>
      cases result with
      | accepted fd => simpa only [MetricsServer.step, MetricsServer.comes, hphase] using hstay
      | interrupted => simpa only [MetricsServer.step, MetricsServer.comes, hphase] using hstay
      | failed => simpa only [MetricsServer.step, MetricsServer.comes, hphase] using hstay
  | send n =>
    cases hphase : s.phase with
    | sending listenFd fd wire sent =>
      simp only [MetricsServer.step, hphase]
      exact h.send hphase n
    | _ => simpa only [MetricsServer.step, MetricsServer.comes, hphase] using hstay

/-- **After any run.** -/
theorem run (metricsPort : ℤ) (es : List MetricsSignal) :
    let r := Reactive.run MetricsServer.step { metricsPort } es
    Serves r.1 r.2 (Reactive.run MetricsServer.arrive { metricsPort } es).2.reverse := by
  refine (Reactive.run_related_of_rule (R := fun s log clients => Serves s log clients.reverse) (fun s e => rfl) ?_ ?_
    es fun _ _ => trivial).2
  · exact ⟨.nil, by simp [sessions]⟩
  · intro s log clients e h _
    have hone : (s.comes e).reverse = s.comes e := by
      unfold MetricsServer.comes
      split
      · split
        · rfl
        · rfl
      · rfl
    rw [List.reverse_append]
    exact hone ▸ h.step e

end Serves

/-- The thread is in the middle of an answer. -/
def MetricsServer.busy (s : MetricsServer) : Bool :=
  match s.phase with
  | .sending _ _ _ _ => true
  | _ => false

/-- **Every client of the metrics server gets the metrics of its moment.** Whatever the system calls return, the
sessions on the descriptors that `accept` has returned are, one by one, those of the clients that have come. Each
client has got a beginning of its answer, and if its descriptor has been closed without a failed `send`, all of it;
only the newest can still be open, and only in the middle of its answer. -/
theorem clients_get_answers (metricsPort : ℤ) (es : List MetricsSignal) :
    let r := Reactive.run MetricsServer.step { metricsPort } es
    List.Forall₂ Scraped (Reactive.run MetricsServer.arrive { metricsPort } es).2.reverse (sessions r.2) ∧
      ∀ session ∈ (sessions r.2).drop (if r.1.busy then 1 else 0), session.closed = true := by
  intro r
  have hserves : Serves r.1 r.2 _ := Serves.run metricsPort es
  cases hphase : r.1.phase with
  | sending listenFd fd wire sent =>
    simp only [Serves, hphase] at hserves
    obtain ⟨text, older, ss, hclients, hwire, -, hsessions, hall⟩ := hserves
    have hserved : Scraped (fd, text) (.underWay fd wire sent) :=
      ⟨rfl, hwire ▸ List.take_prefix sent wire, by simp [Session.underWay]⟩
    rw [hclients, hsessions]
    simp only [MetricsServer.busy, hphase, if_true, List.drop_succ_cons, List.drop_zero]
    exact ⟨.cons hserved hall.served, hall.closed⟩
  | _ =>
    simp only [Serves, hphase] at hserves
    simp only [MetricsServer.busy, hphase, Bool.false_eq_true, if_false, List.drop_zero]
    exact ⟨hserves.served, hserves.closed⟩

/-- Two clients get one number after the other, and the second one does not read its answer to the end. -/
def twoClients : List MetricsSignal :=
  [.create { socket := 4 }, .poll true 1, .accept (.accepted 5) (bytes "up 1"), .send 1000,
    .accept (.accepted 5) (bytes "up 2"), .send 8, .send (-1), .accept .failed []]

theorem clients_get_answers_twoClients :
    List.Forall₂ Scraped [(5, bytes "up 2"), (5, bytes "up 1")]
      [⟨5, bytes "HTTP/1.1", true, true⟩, ⟨5, metricsWire (bytes "up 1"), false, true⟩] := by
  have h := (clients_get_answers 9090 twoClients).1
  have hclients : (Reactive.run MetricsServer.arrive { metricsPort := 9090 } twoClients).2
      = [(5, bytes "up 1"), (5, bytes "up 2")] := by decide +kernel
  have hsessions : sessions (Reactive.run MetricsServer.step { metricsPort := 9090 } twoClients).2
      = [⟨5, bytes "HTTP/1.1", true, true⟩, ⟨5, metricsWire (bytes "up 1"), false, true⟩] := by decide +kernel
  rwa [hclients, hsessions] at h

end ApiGateway.Core
