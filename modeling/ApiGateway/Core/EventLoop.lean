import ApiGateway.Common.Descriptors
import ApiGateway.Core.Worker
import Mathlib.Data.Finmap

/-!
# A worker's event loop

`Worker::run`: the connections of a worker, the callbacks of its `EventLoop`, and the place in the code where
it is. A step is up to the next result of a system call, so that connections come and go in the middle of a
batch of events. Connections are numbered in the order of `accept`, which tells them apart when the kernel
uses a descriptor again; the code does not see these numbers. What happens inside a connection is `onEvent`.

Calls of `accept` and `close`, of `connectionOpened` and `connectionClosed`, results of `epoll_wait` and the
callbacks that are run are logged. The kernel's side is the table of open descriptors after the logged calls
(`kernel`): who is connected to a descriptor is decided there, and not in the worker's own tables.

Reference: `src/core/EventLoop.cpp`, `Gateway::Worker` in `src/core/Gateway.cpp`,
`TcpServer::acceptAll` in `src/network/TcpServer.cpp`.
-/

namespace ApiGateway.Core.Loop

open Str Http Descriptors

/-! ## The model -/

/-- An `epoll_event`: `hangup` stands for `EPOLLHUP` or `EPOLLERR`. -/
structure Ready where
  fd : ℤ
  hangup : Bool := false
  readable : Bool := false
  writable : Bool := false
deriving DecidableEq, Repr

/-- The callback of the listening socket, or that of a connection with the descriptor it has captured. -/
inductive Callback where
  | acceptAll
  | onEvent (fd : ℤ)
deriving DecidableEq, Repr

/-- `EventLoop`, with the interest list that the kernel keeps for `epollFd_`. -/
structure EventLoop where
  interest : Finset ℤ := ∅
  callbacks : Finmap fun _ : ℤ => Callback := ∅

def EventLoop.add (l : EventLoop) (fd : ℤ) (cb : Callback) : EventLoop where
  interest := insert fd l.interest
  callbacks := l.callbacks.insert fd cb

def EventLoop.remove (l : EventLoop) (fd : ℤ) : EventLoop where
  interest := l.interest.erase fd
  callbacks := l.callbacks.erase fd

/-- A `ClientConnection` with its descriptor, and with its number. -/
structure Conn where
  fd : ℤ
  serial : ℕ
  conn : ClientConnection

/-- What a descriptor is connected to. -/
inductive Peer where
  | listener
  | client (serial : ℕ)
deriving DecidableEq, Repr

/-- What is logged. -/
inductive Act where
  /-- `epoll_wait` has returned events for these descriptors. -/
  | polled (fds : List ℤ)
  /-- The callback for an event of a descriptor is run, for this peer. -/
  | delivered (fd : ℤ) (peer : Peer)
  | accepted (fd : ℤ) (serial : ℕ)
  | closed (fd : ℤ)
  | connectionOpened
  | connectionClosed
  /-- What is done with a connection in its callback. -/
  | did (serial : ℕ) (e : Effect)
deriving DecidableEq

/-- Where the worker is. -/
inductive Phase where
  /-- At the top of the `while` loop, before `epoll_wait`. -/
  | waiting
  /-- In the `for` loop of `poll`, with events that are left; before the tick if there are none. -/
  | dispatching (rest : List Ready)
  /-- In `acceptAll`, before `accept`. -/
  | accepting (rest : List Ready)
  /-- In a loop over `closeConnection`: in `sweepIdleConnections`, or at the end of `run`. -/
  | closing (fds : List ℤ) (last : Bool)
  /-- After `run`, and after the destructor of its `TcpServer`. -/
  | returned
deriving DecidableEq, Repr

structure Worker where
  listenFd : ℤ
  loop : EventLoop
  conns : Finmap fun _ : ℤ => Conn := ∅
  /-- How many connections there have been. -/
  accepted : ℕ := 0
  phase : Phase := .waiting

/-- What system calls and the shared subsystems give to the callback of a connection. -/
structure Input (σ : Type*) where
  now : ℤ
  recvs : List RecvResult
  sends : List SendResult
  sendsLater : List SendResult
  gw : σ

/-- What `accept` can return. -/
inductive Accept where
  | accepted (fd : ℤ) (ip : Bytes) (now : ℤ)
  | interrupted
  | failed

inductive Signal (σ : Type*) where
  /-- `running_` is true, and `epoll_wait` returns events, or nothing if it is interrupted. -/
  | wait (result : Option (List Ready))
  | dispatch (input : Input σ)
  | accept (result : Accept)
  /-- The clock in `sweepIdleConnections`, and the order in which it meets the connections. -/
  | tick (now : ℤ) (order : List ℤ)
  | close
  /-- `running_` is false; the order in which the connections are met then. -/
  | stop (order : List ℤ)

namespace Worker

/-- The start of `run`. -/
def start (listenFd : ℤ) : Worker where
  listenFd
  loop := EventLoop.add {} listenFd .acceptAll

def onAccept (w : Worker) (fd : ℤ) (ip : Bytes) (now : ℤ) : Worker × List Act :=
  ({ w with
      conns := w.conns.insert fd ⟨fd, w.accepted, { clientIp := ip, lastActivity := now }⟩
      loop := w.loop.add fd (.onEvent fd)
      accepted := w.accepted + 1 },
    [.accepted fd w.accepted, .connectionOpened])

def closeConnection (w : Worker) (fd : ℤ) : Worker × List Act :=
  if fd ∈ w.conns then
    ({ w with loop := w.loop.remove fd, conns := w.conns.erase fd }, [.closed fd, .connectionClosed])
  else (w, [])

variable {σ ρ : Type*} (sys : Subsystems σ ρ)

/-- The callback with descriptor `fd`, for an event. -/
def onEvent (w : Worker) (fd : ℤ) (ready : Ready) (input : Input σ) : Worker × List Act :=
  match w.conns.lookup fd with
  | none => (w, [])
  | some c =>
    let r := Core.onEvent sys (some c.conn) (.poll ready.hangup ready.readable ready.writable input.now
      input.recvs input.sends input.sendsLater input.gw)
    let acts := .delivered ready.fd (.client c.serial) :: r.2.map (.did c.serial)
    match r.1 with
    | some conn => ({ w with conns := w.conns.insert fd { c with conn } }, acts)
    | none => ((w.closeConnection fd).1, acts ++ (w.closeConnection fd).2)

/-- The rounds of the `for` loop of `poll`. -/
def dispatch (w : Worker) (ready : Ready) (rest : List Ready) (input : Input σ) : Worker × List Act :=
  match w.loop.callbacks.lookup ready.fd with
  | none => ({ w with phase := .dispatching rest }, [])
  | some .acceptAll => ({ w with phase := .accepting rest }, [.delivered ready.fd .listener])
  | some (.onEvent fd) => onEvent sys { w with phase := .dispatching rest } fd ready input

/-- The connections that `sweepIdleConnections` closes. -/
def toClose (w : Worker) (now : ℤ) (order : List ℤ) : List ℤ :=
  order.filter fun fd => (w.conns.lookup fd).any fun c =>
    !c.conn.hasPendingWrite && kIdleTimeout < now - c.conn.lastActivity

def step (w : Worker) : Signal σ → Worker × List Act
  | .wait (some batch) =>
    match w.phase with
    | .waiting => ({ w with phase := .dispatching batch }, [.polled (batch.map Ready.fd)])
    | _ => (w, [])
  | .wait none => (w, [])
  | .dispatch input =>
    match w.phase with
    | .dispatching (ready :: rest) => dispatch sys w ready rest input
    | _ => (w, [])
  | .accept (.accepted fd ip now) =>
    match w.phase with
    | .accepting _ => w.onAccept fd ip now
    | _ => (w, [])
  | .accept .interrupted => (w, [])
  | .accept .failed =>
    match w.phase with
    | .accepting rest => ({ w with phase := .dispatching rest }, [])
    | _ => (w, [])
  | .tick now order =>
    match w.phase with
    | .dispatching [] => ({ w with phase := .closing (w.toClose now order) false }, [])
    | _ => (w, [])
  | .close =>
    match w.phase with
    | .closing (fd :: fds) last => closeConnection { w with phase := .closing fds last } fd
    | .closing [] false => ({ w with phase := .waiting }, [])
    | .closing [] true => ({ w with phase := .returned }, [.closed w.listenFd])
    | _ => (w, [])
  | .stop order =>
    match w.phase with
    | .waiting => ({ w with phase := .closing order true }, [])
    | _ => (w, [])

end Worker

/-! ## The kernel's side -/

def Act.call : Act → Option (Call ℤ Peer)
  | .accepted fd serial => some (.opened fd (.client serial))
  | .closed fd => some (.closed fd)
  | _ => none

def calls (log : List Act) : List (Call ℤ Peer) := log.filterMap Act.call

/-- The table at the start of `run`. -/
def listening (listenFd : ℤ) : Table ℤ Peer := Function.update (fun _ => none) listenFd (some .listener)

/-- The open descriptors, and who is connected to them. -/
def kernel (listenFd : ℤ) (log : List Act) : Table ℤ Peer := after (listening listenFd) (calls log)

/-- The numbers of the connections. -/
def serials (log : List Act) : List ℕ :=
  log.filterMap fun
    | .accepted _ serial => some serial
    | _ => none

/-- The callbacks that were run. -/
def deliveries (log : List Act) : List (ℤ × Peer) :=
  log.filterMap fun
    | .delivered fd peer => some (fd, peer)
    | _ => none

end ApiGateway.Core.Loop
