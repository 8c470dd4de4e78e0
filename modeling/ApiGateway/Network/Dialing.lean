import ApiGateway.Common.Bytes
import ApiGateway.Common.Descriptors

/-!
# Opening a connection

`dialNew` and `checkOne` open a connection to a backend in the same way: a non-blocking `connect`, and a
`poll` with a timeout if it is in progress. What the system calls return is an argument (`DialResults`); the
calls that open, use and close a descriptor are results. Whatever the system calls return, a socket that does
not get connected is closed at once (`connectTo_of_socket`).

Reference: `ConnectionPool::dialNew` in `src/network/ConnectionPool.cpp`, `HealthChecker::checkOne` in
`src/network/HealthChecker.cpp`.
-/

namespace ApiGateway.Network

open Str Descriptors

/-- What a non-blocking `connect` can return; `EINPROGRESS` is told apart from the other errors. -/
inductive ConnectResult where
  | connected
  | inProgress
  | failed
deriving DecidableEq, Repr

/-- What the system calls return that open a connection. -/
structure DialResults where
  /-- `getaddrinfo` has found an address. -/
  resolved : Bool
  socket : ℤ
  connect : ConnectResult
  /-- The result of `poll`, for a connection in progress. -/
  ready : ℤ
  /-- `SO_ERROR`, after `poll`. -/
  soError : ℤ
deriving DecidableEq, Repr

/-- The beginning that `dialNew` and `checkOne` share: a connected socket, or nothing. -/
def connectTo (host : Bytes) (port : ℤ) (r : DialResults) : Option ℤ × List (Call ℤ (Bytes × ℤ)) :=
  if !r.resolved then (none, [])
  else if r.socket < 0 then (none, [])
  else
    let fd := r.socket
    match r.connect with
    | .failed => (none, [.opened fd (host, port), .closed fd])
    | .inProgress =>
      if r.ready ≤ 0 then (none, [.opened fd (host, port), .closed fd])
      else if r.soError ≠ 0 then (none, [.opened fd (host, port), .closed fd])
      else (some fd, [.opened fd (host, port)])
    | .connected => (some fd, [.opened fd (host, port)])

/-- `ConnectionPool::dialNew`. -/
def dialNew (host : Bytes) (port : ℤ) (r : DialResults) : ℤ × List (Call ℤ (Bytes × ℤ)) :=
  match connectTo host port r with
  | (none, calls) => (-1, calls)
  | (some fd, calls) => (fd, calls)

theorem connectTo_of_no_socket (host : Bytes) (port : ℤ) {r : DialResults}
    (h : r.resolved = false ∨ r.socket < 0) : connectTo host port r = (none, []) := by
  rcases h with hresolved | hsocket
  · simp [connectTo, hresolved]
  · simp [connectTo, hsocket]

/-- **A socket is closed again or returned.** -/
theorem connectTo_of_socket (host : Bytes) (port : ℤ) {r : DialResults} (hresolved : r.resolved = true)
    (hsocket : 0 ≤ r.socket) :
    connectTo host port r = (none, [.opened r.socket (host, port), .closed r.socket]) ∨
      connectTo host port r = (some r.socket, [.opened r.socket (host, port)]) := by
  unfold connectTo
  simp only [hresolved, Bool.not_true, Bool.false_eq_true, if_false, not_lt.mpr hsocket]
  cases r.connect with
  | failed => exact .inl rfl
  | connected => exact .inr rfl
  | inProgress =>
    dsimp only
    split
    · exact .inl rfl
    split
    · exact .inl rfl
    · exact .inr rfl

end ApiGateway.Network
