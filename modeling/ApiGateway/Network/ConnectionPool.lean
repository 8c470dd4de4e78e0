import ApiGateway.Common.Bytes
import ApiGateway.Common.Strings
import Mathlib.Data.Finmap

/-!
# The pool of backend connections

Idle descriptors are kept in one queue for each `host:port`, and no queue is longer than
`maxIdlePerBackend`: this is a field, which every operation has to keep. Calls of `close` are results,
and what `dialNew` returns is an argument.

Reference: `src/network/ConnectionPool.cpp`, `include/network/ConnectionPool.hpp`.
-/

namespace ApiGateway.Network

open Str

structure ConnectionPool where
  maxIdlePerBackend : ℕ
  idle : Finmap fun _ : Bytes => List ℤ := ∅
  idle_le : ∀ key fds, idle.lookup key = some fds → fds.length ≤ maxIdlePerBackend := by simp

namespace ConnectionPool

def key (host : Bytes) (port : ℤ) : Bytes := host ++ bytes ":" ++ decimalInt port

/-- Replace one queue. -/
def setIdle (p : ConnectionPool) (key : Bytes) (fds : List ℤ)
    (hfds : fds.length ≤ p.maxIdlePerBackend) : ConnectionPool where
  maxIdlePerBackend := p.maxIdlePerBackend
  idle := p.idle.insert key fds
  idle_le key' fds' h := by
    by_cases heq : key' = key
    · subst heq
      rw [Finmap.lookup_insert] at h
      exact Option.some.inj h ▸ hfds
    · rw [Finmap.lookup_insert_of_ne _ heq] at h
      exact p.idle_le key' fds' h

/-- The queue of a backend; `idle_[k]` makes an empty one if there is none. -/
def queue (p : ConnectionPool) (key : Bytes) : List ℤ := (p.idle.lookup key).getD []

theorem length_queue_le (p : ConnectionPool) (key : Bytes) :
    (p.queue key).length ≤ p.maxIdlePerBackend := by
  unfold queue
  cases h : p.idle.lookup key with
  | none => exact Nat.zero_le _
  | some fds => exact p.idle_le key fds h

/-- The oldest idle descriptor, or the result `dialed` of a new dial. -/
def acquire (p : ConnectionPool) (host : Bytes) (port dialed : ℤ) : ℤ × ConnectionPool :=
  match h : p.queue (key host port) with
  | [] => (dialed, p)
  | fd :: fds =>
    (fd, p.setIdle (key host port) fds (by
      have := p.length_queue_le (key host port)
      rw [h, List.length_cons] at this
      omega))

/-- Put a descriptor back; the second component lists what is closed. -/
def release (p : ConnectionPool) (host : Bytes) (port fd : ℤ) : ConnectionPool × List ℤ :=
  if h : p.maxIdlePerBackend ≤ (p.queue (key host port)).length then
    (p.setIdle (key host port) (p.queue (key host port)) (p.length_queue_le _), [fd])
  else
    (p.setIdle (key host port) (p.queue (key host port) ++ [fd]) (by
      rw [List.length_append, List.length_singleton]
      omega), [])

/-- What `discard` closes. -/
def discard (fd : ℤ) : List ℤ := if 0 ≤ fd then [fd] else []

/-- `closeAll`, which meets the queues in the order `keys`; the second component lists what is closed. -/
def closeAll : List Bytes → ConnectionPool → ConnectionPool × List ℤ
  | [], p => (p, [])
  | key :: keys, p =>
    let r := closeAll keys (p.setIdle key [] (Nat.zero_le _))
    (r.1, p.queue key ++ r.2)

/-! ## Queues -/

theorem queue_setIdle (p : ConnectionPool) (key : Bytes) (fds : List ℤ)
    (hfds : fds.length ≤ p.maxIdlePerBackend) (key' : Bytes) :
    (p.setIdle key fds hfds).queue key' = if key' = key then fds else p.queue key' := by
  unfold queue setIdle
  split
  · rename_i heq
    rw [heq, Finmap.lookup_insert]
    rfl
  · rename_i hne
    rw [Finmap.lookup_insert_of_ne _ hne]

theorem acquire_of_nil {p : ConnectionPool} {host : Bytes} {port : ℤ} (h : p.queue (key host port) = [])
    (dialed : ℤ) : p.acquire host port dialed = (dialed, p) := by
  unfold acquire
  split
  · rfl
  · rename_i heq
    simp [h] at heq

/-- Nothing is dialed if the queue is not empty. -/
theorem acquire_of_ne_nil {p : ConnectionPool} {host : Bytes} {port : ℤ}
    (h : p.queue (key host port) ≠ []) (dialed dialed' : ℤ) :
    p.acquire host port dialed = p.acquire host port dialed' := by
  unfold acquire
  split
  · contradiction
  · rfl

/-- Taking from a queue that is not empty. -/
theorem acquire_of_cons {p : ConnectionPool} {host : Bytes} {port fd : ℤ} {fds : List ℤ}
    (h : p.queue (key host port) = fd :: fds) (dialed : ℤ) :
    (p.acquire host port dialed).1 = fd ∧
      ∀ k, (p.acquire host port dialed).2.queue k = if k = key host port then fds else p.queue k := by
  unfold acquire
  split
  · rename_i hnil
    simp [h] at hnil
  · rename_i fd' fds' heq
    obtain ⟨rfl, rfl⟩ := List.cons.inj (h.symm.trans heq)
    exact ⟨rfl, fun k => by rw [queue_setIdle]⟩

/-- Putting back: the descriptor is closed, or is the last one of its queue. -/
theorem release_cases (p : ConnectionPool) (host : Bytes) (port fd : ℤ) :
    ((p.release host port fd).2 = [fd] ∧ ∀ k, (p.release host port fd).1.queue k = p.queue k) ∨
    ((p.release host port fd).2 = [] ∧ ∀ k, (p.release host port fd).1.queue k
      = if k = key host port then p.queue k ++ [fd] else p.queue k) := by
  unfold release
  split
  · refine .inl ⟨rfl, fun k => ?_⟩
    rw [queue_setIdle]
    split
    · rename_i heq
      rw [heq]
    · rfl
  · refine .inr ⟨rfl, fun k => ?_⟩
    rw [queue_setIdle]
    split
    · rename_i heq
      rw [heq]
    · rfl

theorem queue_closeAll (keys : List Bytes) (p : ConnectionPool) (key : Bytes) :
    (closeAll keys p).1.queue key = if key ∈ keys then [] else p.queue key := by
  induction keys generalizing p with
  | nil => simp [closeAll]
  | cons k keys ih =>
    rw [closeAll, ih, queue_setIdle]
    by_cases hkey : key = k
    · simp [hkey]
    · simp [hkey]

theorem queue_eq_nil {p : ConnectionPool} {key : Bytes} (h : key ∉ p.idle) : p.queue key = [] := by
  rw [queue, Finmap.lookup_eq_none.mpr h]
  rfl

/-! ## The bound stays -/

theorem maxIdlePerBackend_acquire (p : ConnectionPool) (host : Bytes) (port dialed : ℤ) :
    (p.acquire host port dialed).2.maxIdlePerBackend = p.maxIdlePerBackend := by
  unfold acquire
  split <;> rfl

theorem maxIdlePerBackend_release (p : ConnectionPool) (host : Bytes) (port fd : ℤ) :
    (p.release host port fd).1.maxIdlePerBackend = p.maxIdlePerBackend := by
  unfold release
  split <;> rfl

theorem maxIdlePerBackend_closeAll (keys : List Bytes) (p : ConnectionPool) :
    (closeAll keys p).1.maxIdlePerBackend = p.maxIdlePerBackend := by
  induction keys generalizing p with
  | nil => rfl
  | cons key keys ih => exact ih _

/-! ## Keys -/

/-- **Different addresses have different keys**: a port has no colon in it. -/
theorem key_inj {host host' : Bytes} {port port' : ℤ} (h : key host port = key host' port') :
    host = host' ∧ port = port' := by
  have hcolon : ∀ v : ℤ, (58 : UInt8) ∉ (decimalInt v).reverse := by
    intro v hmem
    rcases eq_or_isdigit_of_mem_decimalInt (List.mem_reverse.mp hmem) with heq | hdigit
    · exact absurd heq (by decide)
    · exact absurd hdigit (by decide)
  have hreverse : ∀ (host : Bytes) (port : ℤ),
      (key host port).reverse = (decimalInt port).reverse ++ 58 :: host.reverse := by
    intro host port
    rw [key, List.reverse_append, List.reverse_append]
    rfl
  have heq := congrArg List.reverse h
  rw [hreverse, hreverse] at heq
  obtain ⟨hport, hhost⟩ := append_cons_inj (hcolon port) (hcolon port') heq
  exact ⟨List.reverse_injective hhost, decimalInt_inj (List.reverse_injective hport)⟩

end ConnectionPool

end ApiGateway.Network
