import ApiGateway.Common.Bytes
import ApiGateway.Common.Descriptors

/-!
# Listening sockets

The constructor of `TcpServer`. If `bind` or `listen` fails it throws, and since the object does not exist then,
its destructor does not run: the socket stays open (`TcpServer.lost`).

Reference: `src/network/TcpServer.cpp`.
-/

namespace ApiGateway.Network

open Str Descriptors

/-- What the system calls of the constructor return, and what `strerror` says of the one that fails. -/
structure ServerResults where
  socket : ℤ
  bind : ℤ := 0
  listen : ℤ := 0
  error : Bytes := []

/-- The descriptor of a new server, or the text of the exception. -/
def TcpServer.create (r : ServerResults) : Except Bytes ℤ × List (Call ℤ Unit) :=
  if r.socket < 0 then (.error (bytes "socket() failed"), [])
  else if r.bind < 0 then (.error (bytes "bind() failed: " ++ r.error), [.opened r.socket ()])
  else if r.listen < 0 then (.error (bytes "listen() failed: " ++ r.error), [.opened r.socket ()])
  else (.ok r.socket, [.opened r.socket ()])

/-- The socket that is open after the constructor has thrown. -/
def TcpServer.lost : List (Call ℤ Unit) → Option ℤ
  | .opened fd _ :: _ => some fd
  | _ => none

/-- What is open after the constructor: the server's socket, or after an exception nothing or a socket that
nobody knows. -/
inductive TcpServer.Created : Except Bytes ℤ × List (Call ℤ Unit) → Prop
  | server (fd : ℤ) : Created (.ok fd, [.opened fd ()])
  | nothing (what : Bytes) : Created (.error what, [])
  | lost (what : Bytes) (fd : ℤ) : Created (.error what, [.opened fd ()])

theorem TcpServer.created (r : ServerResults) : Created (create r) := by
  unfold create
  split
  · exact .nothing _
  split
  · exact .lost _ _
  split
  · exact .lost _ _
  · exact .server _

end ApiGateway.Network
