import ApiGateway.Common.Descriptors
import ApiGateway.Common.Ownership
import ApiGateway.Core.Attempts

/-!
# Who owns a backend connection

The kernel's table of open descriptors is what the logged system calls make of it (`kernel`). A descriptor
is opened by the worker that dials, is held by one worker at a time or lies in one queue of the pool, and
is closed by its owner: `Owned` is an invariant of every run in which `dialNew` never returns a descriptor
that is open already. A queue has descriptors of one address only, since different addresses have
different keys.
-/

namespace ApiGateway.Core

open Str Http Routing Resilience Network Descriptors

/-! ## The kernel's table -/

/-- The system call of an act; a descriptor stands for the address that it is connected to. -/
def Act.call : Act → Option (Call ℤ (Bytes × ℤ))
  | .dialed fd host port => some (.opened fd (host, port))
  | .used fd => some (.used fd)
  | .closed fd => some (.closed fd)
  | _ => none

def calls (log : List Act) : List (Call ℤ (Bytes × ℤ)) := log.filterMap Act.call

/-- The open descriptors, and where they are connected to. -/
def kernel (log : List Act) : Table ℤ (Bytes × ℤ) := after (fun _ => none) (calls log)

theorem kernel_append (log acts : List Act) :
    kernel (log ++ acts) = after (kernel log) (calls acts) := after_filterMap_append _ _ log acts

theorem orderly_calls_append {log acts : List Act} (h : Orderly (fun _ => none) (calls log))
    (hacts : Orderly (kernel log) (calls acts)) : Orderly (fun _ => none) (calls (log ++ acts)) :=
  (orderly_filterMap_append _ _ log acts).mpr ⟨h, hacts⟩

theorem calls_closed (fds : List ℤ) : calls (fds.map .closed) = fds.map .closed := by
  rw [calls, List.filterMap_map]
  exact List.filterMap_eq_map_iff_forall_eq_some.mpr fun _ _ => rfl

/-- Acts that do not change the table. -/
structure Idle (table : Table ℤ (Bytes × ℤ)) (acts : List Act) : Prop where
  orderly : Orderly table (calls acts)
  same : after table (calls acts) = table

theorem idle_of_calls_eq_nil {acts : List Act} (h : calls acts = []) (table : Table ℤ (Bytes × ℤ)) :
    Idle table acts := by
  constructor
  · rw [h]
    trivial
  · rw [h]
    rfl

theorem idle_nil (table : Table ℤ (Bytes × ℤ)) : Idle table [] := ⟨trivial, rfl⟩

theorem StaysOutside.calls_eq_nil {w : ℕ} {next : Stage × List Act} (h : StaysOutside w next) :
    calls next.2 = [] := by
  rw [calls, List.filterMap_eq_nil_iff]
  intro a ha
  obtain ⟨group, result, rfl⟩ := h.acts a ha
  rfl

theorem StaysOutside.idle {w : ℕ} {next : Stage × List Act} (h : StaysOutside w next)
    (table : Table ℤ (Bytes × ℤ)) : Idle table next.2 :=
  idle_of_calls_eq_nil h.calls_eq_nil table

/-! ## Owners -/

/-- The descriptor that a worker has, and the backend it is for. -/
def Stage.held : Stage → Option (ℤ × BackendRef)
  | .exchanging call i fd => if 0 ≤ fd then some (fd, ⟨call.group, i⟩) else none
  | .exchanged call i fd _ => if 0 ≤ fd then some (fd, ⟨call.group, i⟩) else none
  | .settling call i fd _ => if 0 ≤ fd then some (fd, ⟨call.group, i⟩) else none
  | .succeeded call i fd _ _ => if 0 ≤ fd then some (fd, ⟨call.group, i⟩) else none
  | _ => none

/-- There is no response without a descriptor. -/
def Stage.Connected : Stage → Prop
  | .exchanged _ _ fd outcome => outcome ≠ none → 0 ≤ fd
  | .settling _ _ fd outcome => outcome ≠ none → 0 ≤ fd
  | .succeeded _ _ fd _ _ => 0 ≤ fd
  | _ => True

theorem Stage.Outside.held {stage : Stage} (h : stage.Outside) : stage.held = none := by
  cases stage <;> first | rfl | exact h.elim

theorem Stage.Outside.connected {stage : Stage} (h : stage.Outside) : stage.Connected := by
  cases stage <;> trivial

/-- Who can own a descriptor. -/
inductive Owner where
  | worker (w : ℕ)
  | queue (key : Bytes)
deriving DecidableEq

def Owns (gw : Gateway) (fd : ℤ) : Owner → Prop
  | .worker w => ∃ b, (gw.workers w).held = some (fd, b)
  | .queue key => fd ∈ gw.pool.queue key

/-- The key of a backend's queue. -/
def keyOf (gw : Gateway) (b : BackendRef) : Bytes :=
  ConnectionPool.key (gw.address b.group b.index).1 (gw.address b.group b.index).2

/-- **Exclusive ownership**, with what is known of the descriptors and of the calls so far. -/
structure Owned (gw : Gateway) (log : List Act) : Prop where
  sole : Ownership.Sole (Owns gw) fun fd => kernel log fd ≠ none
  nodup : ∀ key, (gw.pool.queue key).Nodup
  held : ∀ w fd b, (gw.workers w).held = some (fd, b) →
    kernel log fd = some (gw.address b.group b.index)
  stored : ∀ key, ∀ fd ∈ gw.pool.queue key, 0 ≤ fd ∧
    ∃ host port, key = ConnectionPool.key host port ∧ kernel log fd = some (host, port)
  connected : ∀ w, (gw.workers w).Connected
  orderly : Orderly (fun _ => none) (calls log)

namespace Owned

variable {gw gw' : Gateway} {log acts : List Act} {w : ℕ} {stage : Stage} {fd : ℤ} {b : BackendRef}

/-- Nothing changes hands. -/
theorem same (h : Owned gw log) (hacts : Idle (kernel log) acts)
    (hheld : ∀ u, (gw'.workers u).held = (gw.workers u).held)
    (hqueue : ∀ key, gw'.pool.queue key = gw.pool.queue key)
    (haddress : ∀ group i, gw'.address group i = gw.address group i)
    (hconnected : ∀ u, (gw'.workers u).Connected) : Owned gw' (log ++ acts) := by
  have hkernel : kernel (log ++ acts) = kernel log := by rw [kernel_append, hacts.same]
  refine ⟨h.sole.congr ?_ ?_, ?_, ?_, ?_, hconnected, ?_⟩
  · intro fd o
    cases o with
    | worker u => simp only [Owns, hheld]
    | queue key => simp only [Owns, hqueue]
  · simp only [hkernel, implies_true]
  · intro key
    rw [hqueue]
    exact h.nodup key
  · intro u fd b hu
    rw [hkernel, haddress]
    exact h.held u fd b (hheld u ▸ hu)
  · intro key
    rw [hqueue, hkernel]
    exact h.stored key
  · exact orderly_calls_append h.orderly hacts.orderly

theorem connected_update (h : Owned gw log)
    (hworkers : gw'.workers = Function.update gw.workers w stage) (hconnected : stage.Connected) (u : ℕ) :
    (gw'.workers u).Connected := by
  rw [hworkers]
  by_cases hu : u = w
  · rw [hu, Function.update_self]
    exact hconnected
  · rw [Function.update_of_ne hu]
    exact h.connected u

/-- A worker moves on with what it has. -/
theorem goOn (h : Owned gw log) (hacts : Idle (kernel log) acts)
    (hworkers : gw'.workers = Function.update gw.workers w stage)
    (hqueue : ∀ key, gw'.pool.queue key = gw.pool.queue key)
    (haddress : ∀ group i, gw'.address group i = gw.address group i)
    (hheld : stage.held = (gw.workers w).held) (hconnected : stage.Connected) :
    Owned gw' (log ++ acts) := by
  refine h.same hacts (fun u => ?_) hqueue haddress (h.connected_update hworkers hconnected)
  rw [hworkers]
  by_cases hu : u = w
  · rw [hu, Function.update_self, hheld]
  · rw [Function.update_of_ne hu]

/-- Where a descriptor is after a change: closed, or with an owner that knows its address. -/
def Placed (gw : Gateway) (log : List Act) (fd : ℤ) : Option Owner → Prop
  | none => kernel log fd = none ∧ ∀ o, ¬ Owns gw fd o
  | some (.worker w) => (∀ o, Owns gw fd o ↔ o = .worker w) ∧
    ∀ b, (gw.workers w).held = some (fd, b) → kernel log fd = some (gw.address b.group b.index)
  | some (.queue key) => (∀ o, Owns gw fd o ↔ o = .queue key) ∧ 0 ≤ fd ∧
    ∃ host port, key = ConnectionPool.key host port ∧ kernel log fd = some (host, port)

/-- **One descriptor changes its place**, and everything else stays. -/
theorem change {log' : List Act} (h : Owned gw log) (fd : ℤ) {o : Option Owner}
    (hplaced : Placed gw' log' fd o)
    (hheld : ∀ u fd' b, fd' ≠ fd →
      ((gw'.workers u).held = some (fd', b) ↔ (gw.workers u).held = some (fd', b)))
    (hqueue : ∀ key fd', fd' ≠ fd → (fd' ∈ gw'.pool.queue key ↔ fd' ∈ gw.pool.queue key))
    (hkernel : ∀ fd', fd' ≠ fd → kernel log' fd' = kernel log fd')
    (haddress : ∀ group i, gw'.address group i = gw.address group i)
    (hnodup : ∀ key, (gw'.pool.queue key).Nodup) (hconnected : ∀ u, (gw'.workers u).Connected)
    (horderly : Orderly (fun _ => none) (calls log')) : Owned gw' log' := by
  have howns : ∀ fd' o, fd' ≠ fd → (Owns gw' fd' o ↔ Owns gw fd' o) := by
    intro fd' o hne
    cases o with
    | worker u => exact exists_congr fun b => hheld u fd' b hne
    | queue key => exact hqueue key fd' hne
  -- the descriptor dies or is given to somebody, and the others keep their owners
  refine ⟨?_, hnodup, ?_, ?_, hconnected, horderly⟩
  · cases o with
    | none =>
      obtain ⟨hclosed, hnobody⟩ := hplaced
      refine h.sole.drop (· = fd) (fun fd' o => ?_) fun fd' => ?_
      · by_cases hfd : fd' = fd
        · subst hfd
          simp [hnobody o]
        · simp [hfd, howns fd' o hfd]
      · by_cases hfd : fd' = fd
        · simp [hfd, hclosed]
        · simp [hfd, hkernel fd' hfd]
    | some o =>
      have hnew : (∀ o', Owns gw' fd o' ↔ o' = o) ∧ kernel log' fd ≠ none := by
        cases o with
        | worker w =>
          obtain ⟨howner, haddr⟩ := hplaced
          obtain ⟨b, hb⟩ := (howner (.worker w)).mpr rfl
          exact ⟨howner, by simp [haddr b hb]⟩
        | queue key =>
          obtain ⟨howner, -, host, port, -, hconn⟩ := hplaced
          exact ⟨howner, by simp [hconn]⟩
      refine h.sole.give hnew.1 howns fun fd' => ?_
      by_cases hfd : fd' = fd
      · simp [hfd, hnew.2]
      · simp [hfd, hkernel fd' hfd]
  · intro u fd' b hu
    by_cases hfd : fd' = fd
    · subst hfd
      have hown : Owns gw' fd' (.worker u) := ⟨b, hu⟩
      match o with
      | none => exact absurd hown (hplaced.2 _)
      | some (.worker w) =>
        obtain rfl : u = w := Owner.worker.inj ((hplaced.1 _).mp hown)
        exact hplaced.2 b hu
      | some (.queue key) => exact absurd ((hplaced.1 _).mp hown) (by simp)
    · rw [hkernel fd' hfd, haddress]
      exact h.held u fd' b ((hheld u fd' b hfd).mp hu)
  · intro key fd' hmem
    by_cases hfd : fd' = fd
    · subst hfd
      have hown : Owns gw' fd' (.queue key) := hmem
      match o with
      | none => exact absurd hown (hplaced.2 _)
      | some (.worker w) => exact absurd ((hplaced.1 _).mp hown) (by simp)
      | some (.queue key') =>
        obtain rfl : key = key' := Owner.queue.inj ((hplaced.1 _).mp hown)
        exact hplaced.2
    · rw [hkernel fd' hfd]
      exact h.stored key fd' ((hqueue key fd' hfd).mp hmem)

/-- What the workers hold of the other descriptors, if one worker moves on. -/
theorem held_iff_of_ne (hworkers : gw'.workers = Function.update gw.workers w stage)
    (hbefore : ∀ fd' b, (gw.workers w).held = some (fd', b) → fd' = fd)
    (hafter : ∀ fd' b, stage.held = some (fd', b) → fd' = fd) (u : ℕ) (fd' : ℤ) (b : BackendRef)
    (hne : fd' ≠ fd) :
    (gw'.workers u).held = some (fd', b) ↔ (gw.workers u).held = some (fd', b) := by
  rw [hworkers]
  by_cases hu : u = w
  · subst hu
    rw [Function.update_self]
    exact ⟨fun hh => absurd (hafter fd' b hh) hne, fun hh => absurd (hbefore fd' b hh) hne⟩
  · rw [Function.update_of_ne hu]

theorem owns_worker_iff (hworkers : gw'.workers = Function.update gw.workers w stage) (u : ℕ) :
    Owns gw' fd (.worker u) ↔
      if u = w then ∃ b, stage.held = some (fd, b) else Owns gw fd (.worker u) := by
  simp only [Owns, hworkers]
  split
  · rename_i hu
    rw [hu, Function.update_self]
  · rename_i hu
    rw [Function.update_of_ne hu]

/-- A worker has got a descriptor that was with no other worker, and is in no queue. -/
theorem placed_worker (hworkers : gw'.workers = Function.update gw.workers w stage)
    (hheld : stage.held = some (fd, b)) (hothers : ∀ u, ¬ Owns gw fd (.worker u))
    (hqueues : ∀ key, fd ∉ gw'.pool.queue key)
    (hkernel : kernel log fd = some (gw'.address b.group b.index)) :
    Placed gw' log fd (some (.worker w)) := by
  refine ⟨?_, ?_⟩
  · intro o
    cases o with
    | worker u => simp [owns_worker_iff hworkers, hheld, hothers]
    | queue key => simp [Owns, hqueues key]
  · intro b' hb'
    rw [hworkers, Function.update_self, hheld] at hb'
    obtain rfl : b = b' := by simpa using hb'
    exact hkernel

/-- A worker takes the first descriptor of a queue. -/
theorem take (h : Owned gw log) {fds : List ℤ} (hbefore : (gw.workers w).held = none)
    (hcons : gw.pool.queue (keyOf gw b) = fd :: fds)
    (hworkers : gw'.workers = Function.update gw.workers w stage)
    (hheld : stage.held = some (fd, b)) (hconnected : stage.Connected)
    (hqueue : ∀ key, gw'.pool.queue key = if key = keyOf gw b then fds else gw.pool.queue key)
    (haddress : ∀ group i, gw'.address group i = gw.address group i) : Owned gw' log := by
  have hmem : fd ∈ gw.pool.queue (keyOf gw b) := hcons ▸ List.mem_cons_self
  have hstored : Owns gw fd (.queue (keyOf gw b)) := hmem
  have hnodup := h.nodup (keyOf gw b)
  rw [hcons, List.nodup_cons] at hnodup
  refine h.change fd (placed_worker hworkers hheld ?_ ?_ ?_)
    (held_iff_of_ne hworkers (by simp [hbefore]) (by simp +contextual [hheld])) ?_
    (fun _ _ => rfl) haddress ?_ (h.connected_update hworkers hconnected) h.orderly
  · exact fun u hu => absurd (h.sole.eq hu hstored) (by simp)
  · intro key
    rw [hqueue]
    split
    · exact hnodup.1
    · rename_i hne
      intro hkey
      have hother : Owns gw fd (.queue key) := hkey
      exact hne (Owner.queue.inj (h.sole.eq hother hstored))
  · -- the key of a queue is one of a single address
    obtain ⟨-, host, port, hkey, hconn⟩ := h.stored _ fd hmem
    obtain ⟨hhost, hport⟩ := ConnectionPool.key_inj hkey
    rw [hconn, haddress, ← hhost, ← hport]
  · intro key fd' hne
    rw [hqueue]
    split
    · rename_i hk
      rw [hk, hcons, List.mem_cons, or_iff_right hne]
    · rfl
  · intro key
    rw [hqueue]
    split
    · exact hnodup.2
    · exact h.nodup key

/-- A worker gets a new descriptor. -/
theorem dial (h : Owned gw log) (hbefore : (gw.workers w).held = none) (hfresh : kernel log fd = none)
    (hworkers : gw'.workers = Function.update gw.workers w stage)
    (hheld : stage.held = some (fd, b)) (hconnected : stage.Connected)
    (hqueue : ∀ key, gw'.pool.queue key = gw.pool.queue key)
    (haddress : ∀ group i, gw'.address group i = gw.address group i) :
    Owned gw' (log ++ [.dialed fd (gw.address b.group b.index).1 (gw.address b.group b.index).2]) := by
  have hnobody : ∀ o, ¬ Owns gw fd o := fun o ho => h.sole.alive fd o ho hfresh
  have hkernel : kernel (log ++ [.dialed fd (gw.address b.group b.index).1
      (gw.address b.group b.index).2])
      = Function.update (kernel log) fd (some (gw.address b.group b.index)) := by
    rw [kernel_append]
    rfl
  refine h.change fd (placed_worker hworkers hheld ?_ ?_ ?_)
    (held_iff_of_ne hworkers (by simp [hbefore]) (by simp +contextual [hheld])) ?_ ?_ haddress ?_
    (h.connected_update hworkers hconnected) ?_
  · exact fun u => hnobody (.worker u)
  · intro key
    rw [hqueue]
    exact hnobody (.queue key)
  · rw [hkernel, Function.update_self, haddress]
  · intro key fd' _
    rw [hqueue]
  · intro fd' hne
    rw [hkernel, Function.update_of_ne hne]
  · intro key
    rw [hqueue]
    exact h.nodup key
  · exact orderly_calls_append h.orderly ⟨hfresh, trivial⟩

/-- A worker closes its descriptor. -/
theorem close (h : Owned gw log) (hbefore : (gw.workers w).held = some (fd, b))
    (hworkers : gw'.workers = Function.update gw.workers w stage)
    (hheld : stage.held = none) (hconnected : stage.Connected)
    (hqueue : ∀ key, gw'.pool.queue key = gw.pool.queue key)
    (haddress : ∀ group i, gw'.address group i = gw.address group i)
    (hacts : ∀ table, Idle table acts) : Owned gw' (log ++ .closed fd :: acts) := by
  have hown : Owns gw fd (.worker w) := ⟨b, hbefore⟩
  have hkernel : kernel (log ++ .closed fd :: acts) = Function.update (kernel log) fd none := by
    rw [kernel_append]
    exact (hacts (Function.update (kernel log) fd none)).same
  refine h.change fd (o := none) ⟨?_, ?_⟩
    (held_iff_of_ne hworkers (by simp +contextual [hbefore]) (by simp [hheld])) ?_ ?_ haddress ?_
    (h.connected_update hworkers hconnected) ?_
  · rw [hkernel, Function.update_self]
  · -- the worker was its only owner, and has let it go
    intro o ho
    cases o with
    | worker u =>
      rw [owns_worker_iff hworkers] at ho
      split at ho
      · simp [hheld] at ho
      · rename_i hne
        exact hne (Owner.worker.inj (h.sole.eq ho hown))
    | queue key =>
      rw [Owns, hqueue] at ho
      have hother : Owns gw fd (.queue key) := ho
      exact absurd (h.sole.eq hother hown) (by simp)
  · intro key fd' _
    rw [hqueue]
  · intro fd' hne
    rw [hkernel, Function.update_of_ne hne]
  · intro key
    rw [hqueue]
    exact h.nodup key
  · exact orderly_calls_append h.orderly ⟨h.sole.alive fd _ hown, (hacts _).orderly⟩

/-- A worker puts its descriptor back. -/
theorem store (h : Owned gw log) (hbefore : (gw.workers w).held = some (fd, b)) (hfd : 0 ≤ fd)
    (hworkers : gw'.workers = Function.update gw.workers w stage)
    (hheld : stage.held = none) (hconnected : stage.Connected)
    (hqueue : ∀ key, gw'.pool.queue key
      = if key = keyOf gw b then gw.pool.queue key ++ [fd] else gw.pool.queue key)
    (haddress : ∀ group i, gw'.address group i = gw.address group i)
    (hacts : Idle (kernel log) acts) : Owned gw' (log ++ acts) := by
  have hown : Owns gw fd (.worker w) := ⟨b, hbefore⟩
  have hnew : ∀ key, fd ∉ gw.pool.queue key := by
    intro key hmem
    have hother : Owns gw fd (.queue key) := hmem
    exact absurd (h.sole.eq hother hown) (by simp)
  have hkernel : kernel (log ++ acts) = kernel log := by rw [kernel_append, hacts.same]
  refine h.change fd (o := some (.queue (keyOf gw b))) ⟨?_, hfd, _, _, rfl, ?_⟩
    (held_iff_of_ne hworkers (by simp +contextual [hbefore]) (by simp [hheld])) ?_ ?_ haddress ?_
    (h.connected_update hworkers hconnected) ?_
  · intro o
    cases o with
    | worker u =>
      rw [owns_worker_iff hworkers]
      split
      · simp [hheld]
      · rename_i hne
        simp only [reduceCtorEq, iff_false]
        exact fun ho => hne (Owner.worker.inj (h.sole.eq ho hown))
    | queue key =>
      simp only [Owns, hqueue, Owner.queue.injEq]
      split
      · rename_i hkey
        simp [hkey]
      · rename_i hkey
        simp [hkey, hnew key]
  · rw [hkernel, h.held w fd b hbefore]
  · intro key fd' hne
    rw [hqueue]
    split
    · simp [hne]
    · rfl
  · simp only [hkernel, implies_true]
  · intro key
    rw [hqueue]
    split
    · exact List.concat_eq_append ▸ (h.nodup key).concat (hnew key)
    · exact h.nodup key
  · exact orderly_calls_append h.orderly hacts.orderly

/-- A worker without a descriptor goes to a place outside. -/
theorem goOutside (h : Owned gw log) (hbefore : (gw.workers w).held = none) {next : Stage × List Act}
    (hnext : StaysOutside w next) (hworkers : gw'.workers = Function.update gw.workers w next.1)
    (hqueue : ∀ key, gw'.pool.queue key = gw.pool.queue key)
    (haddress : ∀ group i, gw'.address group i = gw.address group i) : Owned gw' (log ++ next.2) :=
  h.goOn (hnext.idle _) hworkers hqueue haddress (hnext.stage.held.trans hbefore.symm)
    hnext.stage.connected

/-- An exchange, if there is a descriptor for it. -/
theorem exchange (h : Owned gw log) {call : ForwardCall} {i : ℕ} (hstage : gw.workers w = .exchanging call i fd)
    (outcome : Option (HttpResponse × Bool)) :
    let next := if 0 ≤ fd then gw.goTo w (.exchanged call i fd outcome, [.used fd])
      else gw.goTo w (.exchanged call i fd none, [])
    Owned next.1 (log ++ next.2) := by
  have hheld : (gw.workers w).held = if 0 ≤ fd then some (fd, ⟨call.group, i⟩) else none := by
    rw [hstage]
    rfl
  by_cases hfd : 0 ≤ fd
  · have hown : Owns gw fd (.worker w) := ⟨⟨call.group, i⟩, by rw [hheld, if_pos hfd]⟩
    simp only [hfd, if_true]
    exact h.goOn ⟨⟨h.sole.alive fd _ hown, trivial⟩, rfl⟩ rfl (fun _ => rfl) (fun _ _ => rfl) hheld.symm
      fun _ => hfd
  · simp only [hfd, if_false]
    exact h.goOn (idle_nil _) rfl (fun _ => rfl) (fun _ _ => rfl) hheld.symm fun hnone => absurd rfl hnone

/-- The end of a successful exchange, on which the descriptor is put back or closed. -/
theorem finish (h : Owned gw log) {call : ForwardCall} {i : ℕ} {resp : HttpResponse} {reusable : Bool}
    (hstage : gw.workers w = .succeeded call i fd resp reusable) {next : Stage × List Act}
    (hnext : StaysOutside w next) :
    let r := if reusable then gw.pool.release (gw.address call.group i).1 (gw.address call.group i).2 fd
      else (gw.pool, ConnectionPool.discard fd)
    Owned { gw with pool := r.1, workers := Function.update gw.workers w next.1 }
      (log ++ (r.2.map .closed ++ next.2)) := by
  have hfd : 0 ≤ fd := by simpa [hstage, Stage.Connected] using h.connected w
  have hheld : (gw.workers w).held = some (fd, ⟨call.group, i⟩) := by
    rw [hstage]
    exact if_pos hfd
  cases reusable with
  | true =>
    rcases gw.pool.release_cases (gw.address call.group i).1 (gw.address call.group i).2 fd with
      ⟨hclosed, hqueue⟩ | ⟨hclosed, hqueue⟩
    · simp only [if_true, hclosed]
      exact h.close hheld rfl hnext.stage.held hnext.stage.connected hqueue (fun _ _ => rfl) hnext.idle
    · simp only [if_true, hclosed]
      exact h.store hheld hfd rfl hnext.stage.held hnext.stage.connected hqueue (fun _ _ => rfl)
        (hnext.idle _)
  | false =>
    simp only [ConnectionPool.discard, hfd, Bool.false_eq_true, if_false, if_true]
    exact h.close hheld rfl hnext.stage.held hnext.stage.connected (fun _ => rfl) (fun _ _ => rfl)
      hnext.idle

/-- **A worker's step**, if `dialNew` does not return a descriptor that is open. -/
theorem step (h : Owned gw log) (w : ℕ) (input : Input)
    (hfresh : ∀ call i, gw.workers w = .dialing call i → 0 ≤ input.dialed →
      kernel log input.dialed = none) :
    Owned (gw.step w input).1 (log ++ (gw.step w input).2) := by
  have hconnected := h.connected w
  cases hstage : gw.workers w with
  | idle => simpa [Gateway.step, hstage] using h
  | picking call scan =>
    simp only [Gateway.step, hstage]
    exact h.goOutside (by rw [hstage]; rfl) (staysOutside_scanStep _ w call scan) rfl (fun _ => rfl)
      (gw.address_scan w call scan)
  | picked call i =>
    simp only [Gateway.step, hstage]
    split
    · exact h.goOn (idle_of_calls_eq_nil rfl _) rfl (fun _ => rfl)
        (gw.address_modify _ _ _ fun _ => ⟨rfl, rfl⟩) (by rw [hstage]; rfl) trivial
    · exact h.goOutside (by rw [hstage]; rfl) (staysOutside_startAttempt _ w call.next) rfl (fun _ => rfl)
        (gw.address_modify _ _ _ fun _ => ⟨rfl, rfl⟩)
  | admitted call i =>
    simp only [Gateway.step, hstage]
    exact h.goOn (idle_nil _) rfl (fun _ => rfl) (gw.address_modify _ _ _ fun _ => ⟨rfl, rfl⟩)
      (by rw [hstage]; rfl) trivial
  | acquiring call i =>
    simp only [Gateway.step, hstage]
    split
    · exact h.goOn (idle_nil _) rfl (fun _ => rfl) (fun _ _ => rfl) (by rw [hstage]; rfl) trivial
    · rename_i hne
      obtain ⟨fd, fds, hcons⟩ := List.exists_cons_of_ne_nil hne
      obtain ⟨hfd, hqueue⟩ := ConnectionPool.acquire_of_cons hcons (-1)
      -- `acquire` cannot return a stored -1, which would look like a failed dial
      have hnonneg : 0 ≤ fd := (h.stored _ fd (hcons ▸ List.mem_cons_self)).1
      rw [hfd, Gateway.goTo, List.append_nil]
      exact h.take (b := ⟨call.group, i⟩) (by rw [hstage]; rfl) hcons rfl (if_pos hnonneg) trivial hqueue
        fun _ _ => rfl
  | dialing call i =>
    simp only [Gateway.step, hstage]
    by_cases hfd : 0 ≤ input.dialed
    · simp only [hfd, if_true]
      exact h.dial (b := ⟨call.group, i⟩) (by rw [hstage]; rfl) (hfresh call i hstage hfd) rfl (if_pos hfd) trivial
        (fun _ => rfl) fun _ _ => rfl
    · simp only [hfd, if_false]
      exact h.goOn (idle_nil _) rfl (fun _ => rfl) (fun _ _ => rfl)
        (by rw [hstage]; exact if_neg hfd) trivial
  | exchanging call i fd =>
    simp only [Gateway.step, hstage]
    exact h.exchange hstage input.outcome
  | exchanged call i fd outcome =>
    simp only [Gateway.step, hstage]
    rw [hstage] at hconnected
    exact h.goOn (idle_nil _) rfl (fun _ => rfl) (gw.address_modify _ _ _ fun _ => ⟨rfl, rfl⟩)
      (by rw [hstage]; rfl) hconnected
  | settling call i fd outcome =>
    rw [hstage] at hconnected
    cases outcome with
    | some result =>
      simp only [Gateway.step, hstage]
      exact h.goOn (idle_of_calls_eq_nil rfl _) rfl (fun _ => rfl)
        (gw.address_modify _ _ _ fun _ => ⟨rfl, rfl⟩) (by rw [hstage]; rfl) (hconnected (by simp))
    | none =>
      simp only [Gateway.step, hstage, ConnectionPool.discard]
      by_cases hfd : 0 ≤ fd
      · simp only [hfd, if_true]
        exact h.close (b := ⟨call.group, i⟩) (by rw [hstage]; exact if_pos hfd) rfl rfl trivial
          (fun _ => rfl) (fun _ _ => rfl) idle_nil
      · simp only [hfd, if_false]
        exact h.goOn (idle_nil _) rfl (fun _ => rfl) (fun _ _ => rfl)
          (by rw [hstage]; exact (if_neg hfd).symm) trivial
  | succeeded call i fd resp reusable =>
    simp only [Gateway.step, hstage]
    exact h.finish hstage (staysOutside_endAttempt gw w call (some resp))
  | failed call i =>
    simp only [Gateway.step, hstage]
    have hnext := staysOutside_endAttempt (gw.modify call.group i fun b =>
      { b with circuitBreaker := b.circuitBreaker.onFailure input.now }) w call none
    have hidle := hnext.idle (kernel log)
    exact h.goOn ⟨hidle.orderly, hidle.same⟩ rfl (fun _ => rfl)
      (gw.address_modify _ _ _ fun _ => ⟨rfl, rfl⟩) (by rw [hstage]; exact hnext.stage.held)
      hnext.stage.connected

/-- All descriptors of a queue are closed. -/
theorem closeQueue (h : Owned gw log) (key : Bytes) {pool : ConnectionPool}
    (hqueue : ∀ k, pool.queue k = if k = key then [] else gw.pool.queue k) :
    Owned { gw with pool } (log ++ (gw.pool.queue key).map .closed) := by
  have hkernel : ∀ fd, kernel (log ++ (gw.pool.queue key).map .closed) fd
      = if fd ∈ gw.pool.queue key then none else kernel log fd := by
    intro fd
    rw [kernel_append, calls_closed, after_closed]
  -- who owns a descriptor that is not in the queue is not the queue
  have hother : ∀ fd o, Owns gw fd o → (fd ∈ gw.pool.queue key ↔ o = .queue key) := by
    intro fd o ho
    constructor
    · intro hmem
      have hown : Owns gw fd (.queue key) := hmem
      exact h.sole.eq ho hown
    · rintro rfl
      exact ho
  refine ⟨h.sole.drop (· ∈ gw.pool.queue key) ?_ ?_, ?_, ?_, ?_, h.connected, ?_⟩
  · intro fd o
    cases o with
    | worker u =>
      refine ⟨fun ho => ⟨?_, ho⟩, fun ho => ho.2⟩
      simp [hother fd (.worker u) ho]
    | queue k =>
      simp only [Owns, hqueue]
      split
      · rename_i hk
        simp [hk]
      · rename_i hk
        refine ⟨fun ho => ⟨?_, ho⟩, fun ho => ho.2⟩
        simp [hother fd (.queue k) ho, hk]
  · intro fd
    rw [hkernel]
    split
    · rename_i hmem
      simp [hmem]
    · rename_i hmem
      simp [hmem]
  · intro k
    rw [hqueue]
    split
    · exact List.nodup_nil
    · exact h.nodup k
  · intro w fd b hb
    have hown : Owns gw fd (.worker w) := ⟨b, hb⟩
    rw [hkernel, if_neg (by simp [hother fd _ hown])]
    exact h.held w fd b hb
  · intro k fd hmem
    rw [hqueue] at hmem
    split at hmem
    · simp at hmem
    · rename_i hk
      rw [hkernel, if_neg (by simp [hother fd (.queue k) hmem, hk])]
      exact h.stored k fd hmem
  · refine orderly_calls_append h.orderly ?_
    rw [calls_closed]
    refine orderly_closed (h.nodup key) fun fd hmem => ?_
    exact h.sole.alive fd (.queue key) hmem

theorem closeAll (h : Owned gw log) (keys : List Bytes) :
    Owned { gw with pool := (gw.pool.closeAll keys).1 }
      (log ++ (gw.pool.closeAll keys).2.map .closed) := by
  induction keys generalizing gw log with
  | nil => simpa [ConnectionPool.closeAll] using h
  | cons key keys ih =>
    rw [ConnectionPool.closeAll, List.map_append, ← List.append_assoc]
    exact ih (h.closeQueue key (ConnectionPool.queue_setIdle _ _ _ (Nat.zero_le _)))

end Owned

/-! ## Runs -/

/-- What is assumed of a move: `dialNew` returns -1 or a descriptor that is not open, and `closeAll` comes
when the workers are done, and meets every queue once. -/
def Permitted (gw : Gateway) (log : List Act) : Move → Prop
  | .step w input =>
    match gw.workers w with
    | .dialing _ _ => input.dialed = -1 ∨ 0 ≤ input.dialed ∧ kernel log input.dialed = none
    | _ => True
  | .closeAll keys =>
    (∀ w, gw.workers w = .idle) ∧ keys.Nodup ∧ ∀ key, key ∈ keys ↔ key ∈ gw.pool.idle
  | _ => True

/-- **Each move keeps ownership exclusive.** -/
theorem Owned.move {gw : Gateway} {log : List Act} (h : Owned gw log) {e : Move}
    (he : Permitted gw log e) : Owned (gw.move e).1 (log ++ (gw.move e).2) := by
  cases e with
  | call w group attempts =>
    rw [Gateway.move]
    split
    · rename_i hstage
      exact h.goOutside (by rw [hstage]; rfl) (staysOutside_startAttempt _ w _) rfl (fun _ => rfl)
        fun _ _ => rfl
    · simpa using h
  | step w input =>
    refine h.step w input fun call i hstage hfd => ?_
    simp only [Permitted, hstage] at he
    rcases he with hneg | ⟨-, hnone⟩
    · omega
    · exact hnone
  | health group i healthy =>
    exact h.same (idle_nil _) (fun _ => rfl) (fun _ => rfl)
      (gw.address_modify _ _ _ fun _ => ⟨rfl, rfl⟩) h.connected
  | closeAll keys => exact h.closeAll keys

theorem owned_start (groups : ℕ → LoadBalancer) (maxIdlePerBackend : ℕ) :
    Owned (Gateway.start groups maxIdlePerBackend) [] := by
  have hqueue : ∀ key, (Gateway.start groups maxIdlePerBackend).pool.queue key = [] :=
    fun key => ConnectionPool.queue_eq_nil (Finmap.notMem_empty)
  refine ⟨⟨fun fd hfd => absurd rfl hfd, ?_⟩, ?_, ?_, ?_, fun _ => trivial, trivial⟩
  · intro fd o ho
    cases o with
    | worker w =>
      obtain ⟨b, hb⟩ := ho
      simp [Gateway.start, Stage.held] at hb
    | queue key =>
      rw [Owns, hqueue] at ho
      simp at ho
  · simp [hqueue]
  · intro w fd b hb
    simp [Gateway.start, Stage.held] at hb
  · simp [hqueue]

theorem maxIdlePerBackend_step (gw : Gateway) (w : ℕ) (input : Input) :
    (gw.step w input).1.pool.maxIdlePerBackend = gw.pool.maxIdlePerBackend := by
  unfold Gateway.step
  split
  all_goals try rfl
  · simp only
    split <;> rfl
  · simp only
    split
    · rfl
    · exact ConnectionPool.maxIdlePerBackend_acquire _ _ _ _
  · split <;> rfl
  · simp only [Gateway.goTo]
    split
    · exact ConnectionPool.maxIdlePerBackend_release _ _ _ _
    · rfl

theorem maxIdlePerBackend_move (gw : Gateway) (e : Move) :
    (gw.move e).1.pool.maxIdlePerBackend = gw.pool.maxIdlePerBackend := by
  cases e with
  | call w group attempts =>
    rw [Gateway.move]
    split <;> rfl
  | step w input => exact maxIdlePerBackend_step gw w input
  | health group i healthy => rfl
  | closeAll keys => exact ConnectionPool.maxIdlePerBackend_closeAll _ _

/-- **Nothing is left open** when the workers are done and all queues have been met. -/
theorem Owned.nothing_open {gw : Gateway} {log : List Act} (h : Owned gw log)
    (hidle : ∀ w, gw.workers w = .idle) (hqueue : ∀ key, gw.pool.queue key = []) (fd : ℤ) :
    kernel log fd = none := by
  by_contra hopen
  obtain ⟨o, ho, -⟩ := h.sole.existsUnique fd hopen
  cases o with
  | worker w =>
    obtain ⟨b, hb⟩ := ho
    simp [hidle, Stage.held] at hb
  | queue key =>
    rw [Owns, hqueue] at ho
    simp at ho

/-- **Exclusive ownership of pooled sockets.** In every run of any number of workers, every open descriptor
is with one worker, or in one queue and there once, and only open ones are; queues are as long as allowed;
what lies in the queue of an address is connected to this address, and addresses do not share queues;
nothing is closed twice or used after it was closed. After `closeAll` nothing is open. -/
theorem sockets_owned (groups : ℕ → LoadBalancer) (maxIdlePerBackend : ℕ) (es : List Move)
    (hes : Reactive.Obeys Gateway.move Permitted (Gateway.start groups maxIdlePerBackend) [] es) :
    let r := Reactive.run Gateway.move (Gateway.start groups maxIdlePerBackend) es
    (∀ fd, kernel r.2 fd ≠ none → ∃! o, Owns r.1 fd o) ∧
    (∀ fd o, Owns r.1 fd o → kernel r.2 fd ≠ none) ∧
    (∀ key, (r.1.pool.queue key).Nodup ∧ (r.1.pool.queue key).length ≤ maxIdlePerBackend) ∧
    (∀ host port, ∀ fd ∈ r.1.pool.queue (ConnectionPool.key host port),
      kernel r.2 fd = some (host, port)) ∧
    Function.Injective2 ConnectionPool.key ∧
    Orderly (fun _ => none) (calls r.2) ∧
    ∀ keys, Permitted r.1 r.2 (.closeAll keys) →
      ∀ fd, kernel (Reactive.run Gateway.move (Gateway.start groups maxIdlePerBackend)
        (es ++ [.closeAll keys])).2 fd = none := by
  intro r
  have hstep : ∀ gw log e, Owned gw log → Permitted gw log e →
      Owned (gw.move e).1 (log ++ (gw.move e).2) := fun _ _ _ h he => h.move he
  have howned : Owned r.1 r.2 := hes.invariant hstep (owned_start groups maxIdlePerBackend)
  have hmax : r.1.pool.maxIdlePerBackend = maxIdlePerBackend :=
    Reactive.run_invariant (I := fun gw _ => gw.pool.maxIdlePerBackend = maxIdlePerBackend) rfl
      (fun gw _ e h => (maxIdlePerBackend_move gw e).trans h) es
  refine ⟨howned.sole.existsUnique, howned.sole.alive, fun key => ⟨howned.nodup key, ?_⟩, ?_,
    fun _ _ _ _ => ConnectionPool.key_inj, howned.orderly, ?_⟩
  · exact hmax ▸ r.1.pool.length_queue_le key
  · intro host port fd hmem
    obtain ⟨-, host', port', hkey, hconn⟩ := howned.stored _ fd hmem
    obtain ⟨rfl, rfl⟩ := ConnectionPool.key_inj hkey
    exact hconn
  · intro keys hkeys fd
    rw [Reactive.run_concat]
    refine (howned.move hkeys).nothing_open hkeys.1 (fun key => ?_) fd
    rw [Gateway.move, ConnectionPool.queue_closeAll]
    split
    · rfl
    · rename_i hkey
      exact ConnectionPool.queue_eq_nil fun hmem => hkey ((hkeys.2.2 key).mpr hmem)

/-- One worker dials, puts the connection back and is done. -/
def oneExchange : List Move :=
  .call 0 0 1 :: List.replicate 10 (.step 0 { dialed := 7, outcome := some ({}, true) })

def oneBackend (_ : ℕ) : LoadBalancer where
  backends := [{ host := bytes "a", port := 80,
                 circuitBreaker := { failureThreshold := 1, resetTimeout := 1 } }]

theorem sockets_owned_oneExchange :
    let keys := [ConnectionPool.key (bytes "a") 80]
    kernel (Reactive.run Gateway.move (Gateway.start oneBackend 1) oneExchange).2 7
      = some (bytes "a", 80) ∧
    kernel (Reactive.run Gateway.move (Gateway.start oneBackend 1)
      (oneExchange ++ [.closeAll keys])).2 7 = none := by
  have hes : Reactive.Obeys Gateway.move Permitted (Gateway.start oneBackend 1) [] oneExchange :=
    ⟨trivial, trivial, trivial, trivial, trivial, trivial, .inr ⟨by decide, rfl⟩, trivial, trivial, trivial,
      trivial, trivial⟩
  have hidle : ∀ w, (Reactive.run Gateway.move (Gateway.start oneBackend 1) oneExchange).1.workers w
      = .idle := by
    intro w
    cases w with
    | zero => rfl
    | succ w => rfl
  have hpool : (Reactive.run Gateway.move (Gateway.start oneBackend 1) oneExchange).1.pool.idle
      = Finmap.insert (ConnectionPool.key (bytes "a") 80) [7] ∅ := rfl
  obtain ⟨-, -, -, hstored, -, -, hclosed⟩ := sockets_owned oneBackend 1 oneExchange hes
  refine ⟨hstored (bytes "a") 80 7 (by decide), hclosed _ ⟨hidle, by simp, fun key => ?_⟩ 7⟩
  rw [hpool, Finmap.mem_insert, List.mem_singleton, or_iff_left Finmap.notMem_empty]

end ApiGateway.Core
