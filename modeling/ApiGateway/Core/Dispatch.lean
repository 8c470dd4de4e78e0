import ApiGateway.Core.Closing
import ApiGateway.Core.EventLoop

/-!
# Events reach their connections

Between `epoll_wait` and the callback for an event, other callbacks of the batch close and accept
connections, and `accept` may return a descriptor that was closed a moment ago. `Agrees` says that the
worker's tables agree with each other and with the kernel's. An event of a batch whose turn has not come has
a descriptor that is still open, for the peer that it had: only its own callback closes it, and a batch has
one event for a descriptor at most. `Told` states this of the log, and `Consistent` is all of it together.
-/

namespace ApiGateway.Core.Loop

open Str Http Descriptors

/-! ## Logs -/

theorem serials_append (log acts : List Act) : serials (log ++ acts) = serials log ++ serials acts :=
  List.filterMap_append

theorem kernel_append (listenFd : ℤ) (log acts : List Act) :
    kernel listenFd (log ++ acts) = after (kernel listenFd log) (calls acts) :=
  after_filterMap_append _ _ log acts

theorem orderly_calls_append {listenFd : ℤ} {log acts : List Act}
    (h : Orderly (listening listenFd) (calls log)) (hacts : Orderly (kernel listenFd log) (calls acts)) :
    Orderly (listening listenFd) (calls (log ++ acts)) :=
  (orderly_filterMap_append _ _ log acts).mpr ⟨h, hacts⟩

/-- Acts that open and close nothing. -/
def Act.Quiet : Act → Prop
  | .polled _ => True
  | .delivered _ _ => True
  | .did _ _ => True
  | _ => False

section Quiet

variable {acts : List Act} (h : ∀ a ∈ acts, a.Quiet)
include h

theorem calls_eq_nil : calls acts = [] := by
  rw [calls, List.filterMap_eq_nil_iff]
  intro a ha
  have := h a ha
  cases a <;> first | rfl | exact this.elim

theorem serials_eq_nil : serials acts = [] := by
  rw [serials, List.filterMap_eq_nil_iff]
  intro a ha
  have := h a ha
  cases a <;> first | rfl | exact this.elim

theorem kernel_quiet (listenFd : ℤ) (log : List Act) :
    kernel listenFd (log ++ acts) = kernel listenFd log := by
  rw [kernel_append, calls_eq_nil h]
  rfl

end Quiet

/-! ## The tables agree -/

/-- **The tables of the worker and of the kernel agree.** -/
structure Agrees (w : Worker) (log : List Act) : Prop where
  interest : ∀ fd, fd ∈ w.loop.interest ↔ fd ∈ w.loop.callbacks
  callbacks : ∀ fd, w.loop.callbacks.lookup fd = if fd = w.listenFd then some .acceptAll
    else if fd ∈ w.conns then some (.onEvent fd) else none
  listenFd : w.listenFd ∉ w.conns
  fds : ∀ fd c, w.conns.lookup fd = some c → c.fd = fd
  table : ∀ fd, fd ≠ w.listenFd →
    kernel w.listenFd log fd = (w.conns.lookup fd).map fun c => .client c.serial
  orderly : Orderly (listening w.listenFd) (calls log)
  counts : log.count .connectionOpened = log.count .connectionClosed + w.conns.keys.card
  serials : serials log = List.range w.accepted

namespace Agrees

variable {w : Worker} {log acts : List Act} {fd : ℤ} {c : Conn}

/-- The worker goes to another place. -/
theorem goTo (h : Agrees w log) (phase : Phase) : Agrees { w with phase } log :=
  ⟨h.interest, h.callbacks, h.listenFd, h.fds, h.table, h.orderly, h.counts, h.serials⟩

theorem mem_callbacks_iff (h : Agrees w log) (fd : ℤ) :
    fd ∈ w.loop.callbacks ↔ fd = w.listenFd ∨ fd ∈ w.conns := by
  rw [← Finmap.lookup_isSome, h.callbacks]
  by_cases hlisten : fd = w.listenFd
  · simp [hlisten]
  · by_cases hconn : fd ∈ w.conns
    · simp [hlisten, hconn]
    · simp [hlisten, hconn]

theorem quiet (h : Agrees w log) (hacts : ∀ a ∈ acts, a.Quiet) : Agrees w (log ++ acts) where
  interest := h.interest
  callbacks := h.callbacks
  listenFd := h.listenFd
  fds := h.fds
  table := by
    rw [kernel_quiet hacts]
    exact h.table
  orderly := by
    refine orderly_calls_append h.orderly ?_
    rw [calls_eq_nil hacts]
    trivial
  counts := by
    have hopened : acts.count .connectionOpened = 0 := List.count_eq_zero.mpr fun ha => hacts _ ha
    have hclosed : acts.count .connectionClosed = 0 := List.count_eq_zero.mpr fun ha => hacts _ ha
    rw [List.count_append, List.count_append, hopened, hclosed]
    exact h.counts
  serials := by
    rw [serials_append, serials_eq_nil hacts, List.append_nil]
    exact h.serials

/-- A connection gets new contents. -/
theorem replace (h : Agrees w log) (hc : w.conns.lookup fd = some c) (conn : ClientConnection) :
    Agrees { w with conns := w.conns.insert fd { c with conn } } log := by
  have hin : fd ∈ w.conns := Finmap.mem_of_lookup_eq_some hc
  have hmem : ∀ fd', fd' ∈ w.conns.insert fd { c with conn } ↔ fd' ∈ w.conns := by
    intro fd'
    rw [Finmap.mem_insert, or_iff_right_iff_imp]
    rintro rfl
    exact hin
  have hkeys : (w.conns.insert fd { c with conn }).keys = w.conns.keys := by
    ext fd'
    rw [Finmap.mem_keys, Finmap.mem_keys, hmem]
  refine ⟨h.interest, ?_, ?_, ?_, ?_, h.orderly, ?_, h.serials⟩
  · intro fd'
    simp only [hmem]
    exact h.callbacks fd'
  · rw [hmem]
    exact h.listenFd
  · intro fd' c' hc'
    by_cases hfd : fd' = fd
    · subst hfd
      obtain rfl : { c with conn } = c' := by simpa using hc'
      exact h.fds fd' c hc
    · exact h.fds fd' c' (by rwa [Finmap.lookup_insert_of_ne _ hfd] at hc')
  · intro fd' hne
    rw [h.table fd' hne]
    by_cases hfd : fd' = fd
    · rw [hfd, Finmap.lookup_insert, hc]
      rfl
    · rw [Finmap.lookup_insert_of_ne _ hfd]
  · rw [hkeys]
    exact h.counts

/-- **A connection is accepted**, with a descriptor that was not open. -/
theorem accept (h : Agrees w log) (hfresh : kernel w.listenFd log fd = none) (hne : fd ≠ w.listenFd)
    (ip : Bytes) (now : ℤ) :
    Agrees (w.onAccept fd ip now).1 (log ++ (w.onAccept fd ip now).2) := by
  have hnew : fd ∉ w.conns := by
    have := h.table fd hne
    rw [hfresh, eq_comm, Option.map_eq_none_iff, Finmap.lookup_eq_none] at this
    exact this
  have hkernel : kernel w.listenFd (log ++ (w.onAccept fd ip now).2)
      = Function.update (kernel w.listenFd log) fd (some (.client w.accepted)) := by
    rw [kernel_append]
    rfl
  constructor
  · intro fd'
    simp [Worker.onAccept, EventLoop.add, h.interest]
  · intro fd'
    simp only [Worker.onAccept, EventLoop.add, Finmap.mem_insert]
    by_cases hfd : fd' = fd
    · subst hfd
      simp [hne]
    · simp [hfd, h.callbacks]
  · simp [Worker.onAccept, h.listenFd, hne.symm]
  · intro fd' c' hc'
    simp only [Worker.onAccept] at hc'
    by_cases hfd : fd' = fd
    · subst hfd
      rw [Finmap.lookup_insert, Option.some.injEq] at hc'
      rw [← hc']
    · exact h.fds fd' c' (by rwa [Finmap.lookup_insert_of_ne _ hfd] at hc')
  · intro fd' hne'
    show kernel w.listenFd (log ++ (w.onAccept fd ip now).2) fd' = _
    rw [hkernel]
    by_cases hfd : fd' = fd
    · subst hfd
      simp [Worker.onAccept]
    · rw [Function.update_of_ne hfd, h.table fd' hne']
      simp [Worker.onAccept, Finmap.lookup_insert_of_ne _ hfd]
  · exact orderly_calls_append h.orderly ⟨hfresh, trivial⟩
  · have hkeys : (w.onAccept fd ip now).1.conns.keys = insert fd w.conns.keys := by
      ext fd'
      simp [Worker.onAccept, Finmap.mem_keys]
    rw [hkeys, Finset.card_insert_of_notMem (fun hmem => hnew (Finmap.mem_keys.mp hmem))]
    have := h.counts
    simp only [Worker.onAccept, List.count_append, List.count_cons, List.count_nil, beq_iff_eq, reduceCtorEq,
      if_false, BEq.rfl, if_true]
    omega
  · rw [serials_append, h.serials]
    exact List.range_succ.symm

/-- **A connection is closed**, or is there no longer. -/
theorem close (h : Agrees w log) (fd : ℤ) :
    Agrees (w.closeConnection fd).1 (log ++ (w.closeConnection fd).2) := by
  by_cases hin : fd ∈ w.conns
  swap
  · simpa [Worker.closeConnection, hin] using h
  have hne : fd ≠ w.listenFd := fun heq => h.listenFd (heq ▸ hin)
  obtain ⟨c, hc⟩ := Finmap.mem_iff.mp hin
  rw [Worker.closeConnection, if_pos hin]
  have hkernel : kernel w.listenFd (log ++ [.closed fd, .connectionClosed])
      = Function.update (kernel w.listenFd log) fd none := by
    rw [kernel_append]
    rfl
  constructor
  · intro fd'
    simp [EventLoop.remove, h.interest]
  · intro fd'
    simp only [EventLoop.remove, Finmap.mem_erase]
    by_cases hfd : fd' = fd
    · subst hfd
      simp [hne]
    · simp [Finmap.lookup_erase_ne hfd, h.callbacks, hfd]
  · simp [h.listenFd]
  · intro fd' c' hc'
    by_cases hfd : fd' = fd
    · subst hfd
      rw [Finmap.lookup_erase] at hc'
      cases hc'
    · exact h.fds fd' c' (by rwa [Finmap.lookup_erase_ne hfd] at hc')
  · intro fd' hne'
    show kernel w.listenFd (log ++ [.closed fd, .connectionClosed]) fd' = _
    rw [hkernel]
    by_cases hfd : fd' = fd
    · subst hfd
      simp
    · rw [Function.update_of_ne hfd, h.table fd' hne', Finmap.lookup_erase_ne hfd]
  · refine orderly_calls_append h.orderly ⟨?_, trivial⟩
    rw [Call.Allowed, h.table fd hne, hc]
    simp
  · have hcard := Finset.card_erase_add_one (Finmap.mem_keys.mpr hin)
    have := h.counts
    simp only [Finmap.keys_erase, List.count_append, List.count_cons, List.count_nil, beq_iff_eq,
      reduceCtorEq, if_false, BEq.rfl, if_true]
    omega
  · rw [serials_append, h.serials]
    exact List.append_nil _

end Agrees

/-! ## The story of the batches -/

/-- What a reader of the log keeps: the kernel's table, and the events whose callbacks are due, with the
peers that their descriptors had when `epoll_wait` returned. -/
structure Reading where
  table : Table ℤ Peer
  due : List (ℤ × Option Peer)

/-- Read on. A batch comes when the last one is done, and the callbacks come in the order of the batch, each
for the peer that its descriptor had. -/
def Reading.next (s : Reading) : Act → Option Reading
  | .polled fds => if s.due = [] then some { s with due := fds.map fun fd => (fd, s.table fd) } else none
  | .delivered fd peer =>
    match s.due with
    | [] => none
    | d :: due => if d = (fd, some peer) then some { s with due } else none
  | .accepted fd serial => some { s with table := Function.update s.table fd (some (.client serial)) }
  | .closed fd => some { s with table := Function.update s.table fd none }
  | .connectionOpened => some s
  | .connectionClosed => some s
  | .did _ _ => some s

def read (listenFd : ℤ) (log : List Act) : Option Reading :=
  log.foldlM Reading.next ⟨listening listenFd, []⟩

def Act.isPolled : Act → Bool
  | .polled _ => true
  | _ => false

theorem foldlM_cons {s s' : Reading} {a : Act} {acts : List Act}
    (h : (a :: acts).foldlM Reading.next s = some s') :
    ∃ s₁, s.next a = some s₁ ∧ acts.foldlM Reading.next s₁ = some s' := by
  rw [List.foldlM_cons] at h
  exact Option.bind_eq_some_iff.mp h

/-- **One act.** The reader keeps the kernel's table, and what is run was the first of what is due. -/
theorem Reading.next_spec {s s₁ : Reading} {a : Act} (h : s.next a = some s₁) :
    s₁.table = after s.table (calls [a]) ∧
      (a.isPolled = false → s.due = (deliveries [a]).map (fun d => (d.1, some d.2)) ++ s₁.due) := by
  cases a with
  | polled fds =>
    simp only [Reading.next, Option.ite_none_right_eq_some, Option.some.injEq] at h
    obtain ⟨-, rfl⟩ := h
    exact ⟨rfl, by simp [Act.isPolled]⟩
  | delivered fd peer =>
    rw [Reading.next] at h
    split at h
    · cases h
    · rename_i d due hd
      simp only [Option.ite_none_right_eq_some, Option.some.injEq] at h
      obtain ⟨rfl, rfl⟩ := h
      exact ⟨rfl, fun _ => hd⟩
  | accepted fd serial =>
    obtain rfl := Option.some.inj h
    exact ⟨rfl, fun _ => rfl⟩
  | closed fd =>
    obtain rfl := Option.some.inj h
    exact ⟨rfl, fun _ => rfl⟩
  | connectionOpened =>
    obtain rfl := Option.some.inj h
    exact ⟨rfl, fun _ => rfl⟩
  | connectionClosed =>
    obtain rfl := Option.some.inj h
    exact ⟨rfl, fun _ => rfl⟩
  | did serial e =>
    obtain rfl := Option.some.inj h
    exact ⟨rfl, fun _ => rfl⟩

theorem table_of_foldlM {s s' : Reading} {acts : List Act} (h : acts.foldlM Reading.next s = some s') :
    s'.table = after s.table (calls acts) := by
  induction acts generalizing s with
  | nil =>
    obtain rfl : s = s' := by simpa using h
    rfl
  | cons a acts ih =>
    obtain ⟨s₁, hnext, hrest⟩ := foldlM_cons h
    rw [ih hrest, (Reading.next_spec hnext).1]
    exact (after_filterMap_append Act.call s.table [a] acts).symm

/-- Callbacks that have been run were due, and in this order. -/
theorem due_of_foldlM {s s' : Reading} {acts : List Act} (h : acts.foldlM Reading.next s = some s')
    (hacts : ∀ a ∈ acts, a.isPolled = false) :
    s.due = (deliveries acts).map (fun d => (d.1, some d.2)) ++ s'.due := by
  induction acts generalizing s with
  | nil =>
    obtain rfl : s = s' := by simpa using h
    rfl
  | cons a acts ih =>
    obtain ⟨ha, hacts⟩ := List.forall_mem_cons.mp hacts
    obtain ⟨s₁, hnext, hrest⟩ := foldlM_cons h
    have hsplit : deliveries (a :: acts) = deliveries [a] ++ deliveries acts := by
      rw [deliveries, deliveries, deliveries, ← List.filterMap_append]
      rfl
    rw [(Reading.next_spec hnext).2 ha, ih hrest hacts, hsplit, List.map_append, List.append_assoc]

/-- **So far the log tells the story right**, and the callbacks for these events are due. Their descriptors
have the peers that they had. -/
def Told (listenFd : ℤ) (log : List Act) (pending : List Ready) : Prop :=
  read listenFd log = some ⟨kernel listenFd log, pending.map fun r => (r.fd, kernel listenFd log r.fd)⟩

namespace Told

variable {listenFd : ℤ} {log : List Act} {pending : List Ready}

/-- One more act. -/
theorem concat (h : Told listenFd log pending) {a : Act} {s : Reading}
    (hnext : Reading.next ⟨kernel listenFd log, pending.map fun r => (r.fd, kernel listenFd log r.fd)⟩ a
      = some s) : read listenFd (log ++ [a]) = some s := by
  rw [read, List.foldlM_append]
  rw [Told, read] at h
  rw [h]
  simpa using hnext

theorem polled (h : Told listenFd log []) (batch : List Ready) :
    Told listenFd (log ++ [.polled (batch.map Ready.fd)]) batch := by
  have hkernel : kernel listenFd (log ++ [.polled (batch.map Ready.fd)]) = kernel listenFd log :=
    kernel_quiet (by simp [Act.Quiet]) listenFd log
  rw [Told, h.concat rfl, hkernel, List.map_map]
  rfl

theorem delivered {ready : Ready} {rest : List Ready} (h : Told listenFd log (ready :: rest)) {peer : Peer}
    (hpeer : kernel listenFd log ready.fd = some peer) :
    Told listenFd (log ++ [.delivered ready.fd peer]) rest := by
  have hkernel : kernel listenFd (log ++ [.delivered ready.fd peer]) = kernel listenFd log :=
    kernel_quiet (by simp [Act.Quiet]) listenFd log
  rw [Told, hkernel]
  refine h.concat ?_
  rw [List.map_cons, hpeer]
  exact if_pos rfl

theorem did (h : Told listenFd log pending) (serial : ℕ) (effects : List Effect) :
    Told listenFd (log ++ effects.map (.did serial)) pending := by
  have hkernel : kernel listenFd (log ++ effects.map (.did serial)) = kernel listenFd log :=
    kernel_quiet (by simp [Act.Quiet]) listenFd log
  have hread : ∀ (effects : List Effect) (s : Reading),
      (effects.map (Act.did serial)).foldlM Reading.next s = some s := by
    intro effects s
    induction effects with
    | nil => rfl
    | cons e effects ih => exact ih
  rw [Told, hkernel, read, List.foldlM_append]
  rw [Told, read] at h
  rw [h]
  exact hread effects _

/-- A descriptor is opened or closed that no event is due for. -/
theorem table (h : Told listenFd log pending) {fd : ℤ} {a : Act} {peer : Option Peer}
    (hnext : ∀ s : Reading, s.next a = some { s with table := Function.update s.table fd peer })
    (hkernel : kernel listenFd (log ++ [a]) = Function.update (kernel listenFd log) fd peer)
    (hpending : ∀ r ∈ pending, r.fd ≠ fd) : Told listenFd (log ++ [a]) pending := by
  rw [Told, h.concat (hnext _), hkernel, Option.some.injEq, Reading.mk.injEq]
  refine ⟨rfl, List.map_congr_left fun r hr => ?_⟩
  rw [Function.update_of_ne (hpending r hr)]

theorem silent (h : Told listenFd log pending) {a : Act} (hnext : ∀ s : Reading, s.next a = some s)
    (hkernel : kernel listenFd (log ++ [a]) = kernel listenFd log) :
    Told listenFd (log ++ [a]) pending := by
  rw [Told, h.concat (hnext _), hkernel]

theorem closed (h : Told listenFd log pending) {fd : ℤ} (hpending : ∀ r ∈ pending, r.fd ≠ fd) :
    Told listenFd (log ++ [.closed fd]) pending :=
  h.table (fun _ => rfl) (kernel_append _ _ _) hpending

theorem accept (h : Told listenFd log pending) {w : Worker} {fd : ℤ}
    (hpending : ∀ r ∈ pending, r.fd ≠ fd) (ip : Bytes) (now : ℤ) :
    Told listenFd (log ++ (w.onAccept fd ip now).2) pending := by
  have hopened : Told listenFd (log ++ [.accepted fd w.accepted]) pending :=
    h.table (fun _ => rfl) (kernel_append _ _ _) hpending
  have := hopened.silent (a := .connectionOpened) (fun _ => rfl) (kernel_append _ _ _)
  rwa [List.append_assoc] at this

theorem close (h : Told listenFd log pending) {w : Worker} {fd : ℤ} (hpending : ∀ r ∈ pending, r.fd ≠ fd) :
    Told listenFd (log ++ (w.closeConnection fd).2) pending := by
  rw [Worker.closeConnection]
  split
  · have := (h.closed hpending).silent (a := .connectionClosed) (fun _ => rfl) (kernel_append _ _ _)
    rwa [List.append_assoc] at this
  · rwa [List.append_nil]

end Told

/-! ## Consistency -/

/-- The events whose callbacks have not been run. -/
def Phase.pending : Phase → List Ready
  | .dispatching rest => rest
  | .accepting rest => rest
  | _ => []

/-- **The worker is consistent**: its tables agree, the events that are left are for descriptors that are
open, and `run` does not return before all connections are closed. -/
structure Consistent (w : Worker) (log : List Act) : Prop where
  agrees : Agrees w log
  listener : w.phase ≠ .returned → kernel w.listenFd log w.listenFd = some .listener
  nodup : (w.phase.pending.map Ready.fd).Nodup
  registered : ∀ r ∈ w.phase.pending, r.fd ∈ w.loop.callbacks
  told : Told w.listenFd log w.phase.pending
  leaving : ∀ fds, w.phase = .closing fds true → ∀ fd ∈ w.conns, fd ∈ fds
  left : w.phase = .returned → ∀ fd, fd ∉ w.conns

/-- What is assumed of a result: `epoll_wait` reports registered descriptors and each of them once, `accept`
returns a descriptor that is not open, and the loops over `conns_` meet each connection once. -/
def Permitted {σ : Type*} (w : Worker) (log : List Act) : Signal σ → Prop
  | .wait (some batch) => (batch.map Ready.fd).Nodup ∧ ∀ r ∈ batch, r.fd ∈ w.loop.interest
  | .accept (.accepted fd _ _) => kernel w.listenFd log fd = none
  | .tick _ order => order.Nodup ∧ ∀ fd, fd ∈ order ↔ fd ∈ w.conns
  | .stop order => order.Nodup ∧ ∀ fd, fd ∈ order ↔ fd ∈ w.conns
  | _ => True

theorem mem_conns_closeConnection (w : Worker) (fd fd' : ℤ) :
    fd' ∈ (w.closeConnection fd).1.conns ↔ fd' ≠ fd ∧ fd' ∈ w.conns := by
  rw [Worker.closeConnection]
  split
  · exact Finmap.mem_erase
  · rename_i hfd
    refine ⟨fun hmem => ⟨fun heq => hfd (heq ▸ hmem), hmem⟩, fun hmem => hmem.2⟩

theorem mem_callbacks_closeConnection (w : Worker) {fd fd' : ℤ} (hne : fd' ≠ fd) :
    fd' ∈ (w.closeConnection fd).1.loop.callbacks ↔ fd' ∈ w.loop.callbacks := by
  rw [Worker.closeConnection]
  split
  · exact Finmap.mem_erase.trans (and_iff_right hne)
  · rfl

@[simp] theorem phase_closeConnection (w : Worker) (fd : ℤ) :
    (w.closeConnection fd).1.phase = w.phase := by
  rw [Worker.closeConnection]
  split <;> rfl

@[simp] theorem listenFd_closeConnection (w : Worker) (fd : ℤ) :
    (w.closeConnection fd).1.listenFd = w.listenFd := by
  rw [Worker.closeConnection]
  split <;> rfl

theorem closeConnection_goTo (w : Worker) (phase : Phase) (fd : ℤ) :
    Worker.closeConnection { w with phase } fd
      = ({ (w.closeConnection fd).1 with phase }, (w.closeConnection fd).2) := by
  simp only [Worker.closeConnection]
  split <;> rfl

/-- Closing a connection leaves the listening socket alone. -/
theorem Agrees.kernel_closeConnection {w : Worker} {log : List Act} (h : Agrees w log) (fd : ℤ) :
    kernel w.listenFd (log ++ (w.closeConnection fd).2) w.listenFd
      = kernel w.listenFd log w.listenFd := by
  rw [Worker.closeConnection]
  split
  · rename_i hin
    have hne : w.listenFd ≠ fd := fun heq => h.listenFd (heq ▸ hin)
    rw [kernel_append]
    exact Function.update_of_ne hne _ _
  · rw [List.append_nil]

/-- The end of `run`. -/
theorem Agrees.finish {w : Worker} {log : List Act} (h : Agrees w log)
    (hlisten : kernel w.listenFd log w.listenFd = some .listener) :
    Agrees w (log ++ [.closed w.listenFd]) where
  interest := h.interest
  callbacks := h.callbacks
  listenFd := h.listenFd
  fds := h.fds
  table fd hne := by
    rw [← h.table fd hne, kernel_append]
    exact Function.update_of_ne hne _ _
  orderly := orderly_calls_append h.orderly ⟨by simp [Call.Allowed, hlisten], trivial⟩
  counts := by simpa [List.count_cons] using h.counts
  serials := by
    rw [serials_append, h.serials]
    exact List.append_nil _

namespace Consistent

variable {w : Worker} {log acts : List Act} {phase : Phase} {fd : ℤ} {c : Conn}

/-- The worker goes to another place, and opens and closes nothing. -/
theorem goTo (h : Consistent w log) (hacts : ∀ a ∈ acts, a.Quiet) (hphase : w.phase ≠ .returned)
    (hphase' : phase ≠ .returned) (hnodup : (phase.pending.map Ready.fd).Nodup)
    (hregistered : ∀ r ∈ phase.pending, r.fd ∈ w.loop.callbacks)
    (htold : Told w.listenFd (log ++ acts) phase.pending)
    (hleaving : ∀ fds, phase = .closing fds true → ∀ fd ∈ w.conns, fd ∈ fds) :
    Consistent { w with phase } (log ++ acts) where
  agrees := (h.agrees.goTo phase).quiet hacts
  listener _ := by
    rw [kernel_quiet hacts]
    exact h.listener hphase
  nodup := hnodup
  registered := hregistered
  told := htold
  leaving := hleaving
  left hreturned := absurd hreturned hphase'

/-- The worker goes on with the events that are left. -/
theorem goOn (h : Consistent w log) (hphase : w.phase ≠ .returned) (hphase' : phase ≠ .returned)
    (hpending : phase.pending = w.phase.pending)
    (hleaving : ∀ fds, phase = .closing fds true → ∀ fd ∈ w.conns, fd ∈ fds) :
    Consistent { w with phase } (log ++ []) := by
  refine h.goTo (by simp) hphase hphase' ?_ ?_ ?_ hleaving
  · rw [hpending]
    exact h.nodup
  · rw [hpending]
    exact h.registered
  · rw [hpending, List.append_nil]
    exact h.told

/-- The worker goes on inside its phase. -/
theorem quiet (h : Consistent w log) (hacts : ∀ a ∈ acts, a.Quiet)
    (htold : Told w.listenFd (log ++ acts) w.phase.pending) : Consistent w (log ++ acts) where
  agrees := h.agrees.quiet hacts
  listener hphase := by
    rw [kernel_quiet hacts]
    exact h.listener hphase
  nodup := h.nodup
  registered := h.registered
  told := htold
  leaving := h.leaving
  left := h.left

theorem replace (h : Consistent w log) (hc : w.conns.lookup fd = some c) (conn : ClientConnection) :
    Consistent { w with conns := w.conns.insert fd { c with conn } } log where
  agrees := h.agrees.replace hc conn
  listener := h.listener
  nodup := h.nodup
  registered := h.registered
  told := h.told
  leaving fds hphase fd' hmem := by
    rcases Finmap.mem_insert.mp hmem with rfl | hmem
    · exact h.leaving fds hphase fd' (Finmap.mem_of_lookup_eq_some hc)
    · exact h.leaving fds hphase fd' hmem
  left hphase fd' hmem := by
    rcases Finmap.mem_insert.mp hmem with rfl | hmem
    · exact h.left hphase fd' (Finmap.mem_of_lookup_eq_some hc)
    · exact h.left hphase fd' hmem

/-- A connection is closed for which no event is left. -/
theorem closeConnection (h : Consistent w log) (hpending : ∀ r ∈ w.phase.pending, r.fd ≠ fd) :
    Consistent (w.closeConnection fd).1 (log ++ (w.closeConnection fd).2) where
  agrees := h.agrees.close fd
  listener hphase := by
    rw [listenFd_closeConnection, h.agrees.kernel_closeConnection]
    exact h.listener (by simpa using hphase)
  nodup := by simpa using h.nodup
  registered r hr := by
    rw [phase_closeConnection] at hr
    exact (mem_callbacks_closeConnection w (hpending r hr)).mpr (h.registered r hr)
  told := by
    rw [listenFd_closeConnection, phase_closeConnection]
    exact h.told.close hpending
  leaving fds hphase fd' hmem := by
    rw [phase_closeConnection] at hphase
    exact h.leaving fds hphase fd' ((mem_conns_closeConnection w fd fd').mp hmem).2
  left hphase fd' hmem := by
    rw [phase_closeConnection] at hphase
    exact h.left hphase fd' ((mem_conns_closeConnection w fd fd').mp hmem).2

/-- A connection is accepted. -/
theorem onAccept (h : Consistent w log) {rest : List Ready} (hphase : w.phase = .accepting rest)
    (hfresh : kernel w.listenFd log fd = none) (ip : Bytes) (now : ℤ) :
    Consistent (w.onAccept fd ip now).1 (log ++ (w.onAccept fd ip now).2) := by
  have hlisten := h.listener (by simp [hphase])
  have hne : fd ≠ w.listenFd := by
    rintro rfl
    rw [hfresh] at hlisten
    cases hlisten
  -- events are left for open descriptors only
  have hpending : ∀ r ∈ w.phase.pending, r.fd ≠ fd := by
    rintro r hr rfl
    rcases (h.agrees.mem_callbacks_iff r.fd).mp (h.registered r hr) with heq | hmem
    · exact hne heq
    · obtain ⟨c, hc⟩ := Finmap.mem_iff.mp hmem
      have := h.agrees.table r.fd hne
      rw [hfresh, hc] at this
      cases this
  refine ⟨h.agrees.accept hfresh hne ip now, fun _ => ?_, h.nodup, fun r hr => ?_,
    h.told.accept hpending ip now, fun fds hclosing => ?_, fun hreturned => ?_⟩
  · show kernel w.listenFd (log ++ (w.onAccept fd ip now).2) w.listenFd = _
    rw [kernel_append, ← hlisten]
    exact Function.update_of_ne hne.symm _ _
  · exact Finmap.mem_insert.mpr (.inr (h.registered r hr))
  · rw [Worker.onAccept, hphase] at hclosing
    cases hclosing
  · rw [Worker.onAccept, hphase] at hreturned
    cases hreturned

variable {σ ρ : Type*} (sys : Subsystems σ ρ)

/-- **The callback for an event**, which is run for the peer that its descriptor had. -/
theorem dispatch (h : Consistent w log) {ready : Ready} {rest : List Ready}
    (hphase : w.phase = .dispatching (ready :: rest)) (input : Input σ) :
    Consistent (w.dispatch sys ready rest input).1 (log ++ (w.dispatch sys ready rest input).2) := by
  have hopen : w.phase ≠ .returned := by simp [hphase]
  have hnodup := h.nodup
  have hregistered := h.registered
  have htold := h.told
  rw [hphase] at hnodup hregistered htold
  obtain ⟨hready, hnodup⟩ := List.nodup_cons.mp hnodup
  obtain ⟨hfirst, hregistered⟩ := List.forall_mem_cons.mp hregistered
  have hrest : ∀ r ∈ rest, r.fd ≠ ready.fd := fun r hr heq =>
    hready (List.mem_map.mpr ⟨r, hr, heq⟩)
  -- after the callback has been found
  have hgo : ∀ {phase : Phase} {peer : Peer}, phase ≠ .returned → phase.pending = rest →
      (∀ fds, phase ≠ .closing fds true) → kernel w.listenFd log ready.fd = some peer →
      Consistent { w with phase } (log ++ [.delivered ready.fd peer]) := by
    intro phase peer hphase' hpending hclosing hpeer
    refine h.goTo (by simp [Act.Quiet]) hopen hphase' ?_ ?_ ?_ fun fds hfds => absurd hfds (hclosing fds)
    · rwa [hpending]
    · rwa [hpending]
    · rw [hpending]
      exact htold.delivered hpeer
  have hcallback := h.agrees.callbacks ready.fd
  by_cases hlisten : ready.fd = w.listenFd
  · rw [if_pos hlisten] at hcallback
    rw [Worker.dispatch, hcallback]
    refine hgo (by simp) rfl (by simp) ?_
    rw [hlisten]
    exact h.listener hopen
  · have hconn := ((h.agrees.mem_callbacks_iff ready.fd).mp hfirst).resolve_left hlisten
    rw [if_neg hlisten, if_pos hconn] at hcallback
    obtain ⟨c, hc⟩ := Finmap.mem_iff.mp hconn
    have hpeer : kernel w.listenFd log ready.fd = some (.client c.serial) := by
      rw [h.agrees.table ready.fd hlisten, hc]
      rfl
    have hdelivered : Consistent { w with phase := .dispatching rest }
        (log ++ [.delivered ready.fd (.client c.serial)]) := hgo (by simp) rfl (by simp) hpeer
    have hdid : ∀ effects : List Effect, Consistent { w with phase := .dispatching rest }
        (log ++ [.delivered ready.fd (.client c.serial)] ++ effects.map (.did c.serial)) :=
      fun effects => hdelivered.quiet (by simp [Act.Quiet]) (hdelivered.told.did c.serial effects)
    rw [Worker.dispatch, hcallback]
    simp only [Worker.onEvent, hc]
    split
    · rw [← List.singleton_append, ← List.append_assoc]
      exact (hdid _).replace hc _
    · -- the callback closes its own descriptor, which has no other event in the batch
      rw [← List.append_assoc, ← List.singleton_append, ← List.append_assoc]
      exact (hdid _).closeConnection hrest

/-- The round of a loop over `closeConnection`. -/
theorem closeNext (h : Consistent w log) {fds : List ℤ} {last : Bool}
    (hphase : w.phase = .closing (fd :: fds) last) :
    Consistent { (w.closeConnection fd).1 with phase := .closing fds last }
      (log ++ (w.closeConnection fd).2 ++ []) := by
  have hpending : w.phase.pending = [] := by
    rw [hphase]
    rfl
  refine (h.closeConnection (by simp [hpending])).goOn (by simp [hphase]) (by simp) ?_ ?_
  · rw [phase_closeConnection, hpending]
    rfl
  · intro fds' hfds' fd' hmem
    obtain ⟨rfl, rfl⟩ : fds = fds' ∧ last = true := by simpa using hfds'
    obtain ⟨hne, hmem⟩ := (mem_conns_closeConnection w fd fd').mp hmem
    exact List.mem_of_ne_of_mem hne (h.leaving _ hphase fd' hmem)

/-- `run` returns. -/
theorem finish (h : Consistent w log) (hphase : w.phase = .closing [] true) :
    Consistent { w with phase := .returned } (log ++ [.closed w.listenFd]) := by
  have hnone : ∀ fd, fd ∉ w.conns := by
    intro fd hmem
    simpa using h.leaving [] hphase fd hmem
  have htold := h.told
  rw [hphase] at htold
  refine ⟨(h.agrees.goTo .returned).finish (h.listener (by simp [hphase])), by simp, List.nodup_nil, ?_, ?_,
    by simp, fun _ => hnone⟩
  · simp [Phase.pending]
  · exact htold.closed (by simp [Phase.pending])

/-- **A step keeps the worker consistent.** -/
theorem step (h : Consistent w log) {s : Signal σ} (hs : Permitted w log s) :
    Consistent (w.step sys s).1 (log ++ (w.step sys s).2) := by
  have hstay : Consistent w (log ++ []) := by rwa [List.append_nil]
  cases s with
  | wait result =>
    cases result with
    | none => exact hstay
    | some batch =>
      rw [Worker.step]
      split
      · rename_i hphase
        have htold := h.told
        rw [hphase] at htold
        exact h.goTo (by simp [Act.Quiet]) (by simp [hphase]) (by simp) hs.1
          (fun r hr => (h.agrees.interest r.fd).mp (hs.2 r hr)) (htold.polled batch) (by simp)
      · exact hstay
  | dispatch input =>
    rw [Worker.step]
    split
    · rename_i ready rest hphase
      exact h.dispatch sys hphase input
    · exact hstay
  | accept result =>
    cases result with
    | accepted fd ip now =>
      rw [Worker.step]
      split
      · rename_i rest hphase
        exact h.onAccept hphase hs ip now
      · exact hstay
    | interrupted => exact hstay
    | failed =>
      rw [Worker.step]
      split
      · rename_i rest hphase
        exact h.goOn (by simp [hphase]) (by simp) (by rw [hphase]; rfl) (by simp)
      · exact hstay
  | tick now order =>
    rw [Worker.step]
    split
    · rename_i hphase
      exact h.goOn (by simp [hphase]) (by simp) (by rw [hphase]; rfl) (by simp)
    · exact hstay
  | close =>
    rw [Worker.step]
    split
    · rename_i fd fds last hphase
      rw [closeConnection_goTo, ← List.append_nil (log ++ _)]
      exact h.closeNext hphase
    · rename_i hphase
      exact h.goOn (by simp [hphase]) (by simp) (by rw [hphase]; rfl) (by simp)
    · rename_i hphase
      exact h.finish hphase
    · exact hstay
  | stop order =>
    rw [Worker.step]
    split
    · rename_i hphase
      refine h.goOn (by simp [hphase]) (by simp) (by rw [hphase]; rfl) fun fds hfds fd hmem => ?_
      obtain rfl : order = fds := by simpa using hfds
      exact (hs.2 fd).mpr hmem
    · exact hstay

end Consistent

/-! ## Every run -/

theorem agrees_start (listenFd : ℤ) : Agrees (Worker.start listenFd) [] where
  interest fd := by simp [Worker.start, EventLoop.add, Finmap.notMem_empty]
  callbacks fd := by
    by_cases hfd : fd = listenFd
    · subst hfd
      simp [Worker.start, EventLoop.add]
    · simp [Worker.start, EventLoop.add, hfd, Finmap.notMem_empty]
  listenFd := Finmap.notMem_empty
  fds fd c hc := by simp [Worker.start] at hc
  table fd hfd := by
    show listening listenFd fd = none
    exact Function.update_of_ne hfd _ _
  orderly := trivial
  counts := rfl
  serials := rfl

theorem consistent_start (listenFd : ℤ) : Consistent (Worker.start listenFd) [] where
  agrees := agrees_start listenFd
  listener _ := by
    show listening listenFd listenFd = some .listener
    exact Function.update_self _ _ _
  nodup := List.nodup_nil
  registered := by simp [Worker.start, Phase.pending]
  told := rfl
  leaving := by simp [Worker.start]
  left := by simp [Worker.start]

theorem listenFd_onEvent {σ ρ : Type*} (sys : Subsystems σ ρ) (w : Worker) (fd : ℤ) (ready : Ready)
    (input : Input σ) : (w.onEvent sys fd ready input).1.listenFd = w.listenFd := by
  rw [Worker.onEvent]
  split
  · rfl
  · dsimp only
    split
    · rfl
    · exact listenFd_closeConnection w fd

theorem listenFd_step {σ ρ : Type*} (sys : Subsystems σ ρ) (w : Worker) (s : Signal σ) :
    (w.step sys s).1.listenFd = w.listenFd := by
  unfold Worker.step
  split
  all_goals try rfl
  all_goals split
  all_goals try rfl
  · rw [Worker.dispatch]
    split
    · rfl
    · rfl
    · exact listenFd_onEvent sys _ _ _ _
  · exact listenFd_closeConnection _ _

section Story

variable {listenFd : ℤ} {log l₁ l₂ : List Act} {fds : List ℤ}

/-- **Each event is for the peer that its descriptor had** when `epoll_wait` returned. -/
theorem due_of_read {s : Reading} (h : read listenFd (l₁ ++ .polled fds :: l₂) = some s)
    (hl₂ : ∀ a ∈ l₂, a.isPolled = false) :
    (fds.map fun fd => (fd, kernel listenFd l₁ fd))
      = (deliveries l₂).map (fun d => (d.1, some d.2)) ++ s.due := by
  rw [read, List.foldlM_append] at h
  obtain ⟨s₁, hs₁, h⟩ := Option.bind_eq_some_iff.mp h
  obtain ⟨s₂, hs₂, h⟩ := foldlM_cons h
  have htable : s₁.table = kernel listenFd l₁ := table_of_foldlM hs₁
  simp only [Reading.next, Option.ite_none_right_eq_some, Option.some.injEq] at hs₂
  rw [← due_of_foldlM h hl₂, ← hs₂.2, htable]

end Story

/-- **Events reach their connections, and the tables stay consistent.** In every run of a worker, with any
batches, accepts, closes and sweeps: the callbacks are those of the listening socket and of the connections; a
connection is stored under its descriptor; as many connections were counted as opened as are there or were
counted as closed, and none is there when `run` has returned; no descriptor is closed twice; and the events of
a batch are delivered in its order, each to the peer that its descriptor had when `epoll_wait` returned, and
none is lost. Connections are told apart by numbers that are never used again. -/
theorem events_reach_owners {σ ρ : Type*} (sys : Subsystems σ ρ) (listenFd : ℤ) (es : List (Signal σ))
    (hes : Reactive.Obeys (Worker.step sys) Permitted (Worker.start listenFd) [] es) :
    let r := Reactive.run (Worker.step sys) (Worker.start listenFd) es
    (∀ fd, fd ∈ r.1.loop.callbacks ↔ fd = listenFd ∨ fd ∈ r.1.conns) ∧
    (∀ fd c, r.1.conns.lookup fd = some c → c.fd = fd) ∧
    r.2.count .connectionOpened = r.2.count .connectionClosed + r.1.conns.keys.card ∧
    (r.1.phase = .returned → r.2.count .connectionOpened = r.2.count .connectionClosed) ∧
    Orderly (listening listenFd) (calls r.2) ∧
    serials r.2 = List.range r.1.accepted ∧
    (∀ l₁ fds l₂ l₃, r.2 = l₁ ++ .polled fds :: (l₂ ++ l₃) → (∀ a ∈ l₂, a.isPolled = false) →
      (deliveries l₂).map (fun d => (d.1, some d.2)) <+: fds.map fun fd => (fd, kernel listenFd l₁ fd)) ∧
    ∀ l₁ fds l₂, r.2 = l₁ ++ .polled fds :: l₂ → (∀ a ∈ l₂, a.isPolled = false) →
      r.1.phase = .waiting →
      (deliveries l₂).map (fun d => (d.1, some d.2)) = fds.map fun fd => (fd, kernel listenFd l₁ fd) := by
  intro r
  have hstep : ∀ w log s, Consistent w log → Permitted w log s →
      Consistent (Worker.step sys w s).1 (log ++ (Worker.step sys w s).2) :=
    fun _ _ _ h hs => h.step sys hs
  have h : Consistent r.1 r.2 := hes.invariant hstep (consistent_start listenFd)
  have hlisten : r.1.listenFd = listenFd :=
    Reactive.run_invariant (I := fun w _ => w.listenFd = listenFd) rfl
      (fun w _ s hw => (listenFd_step sys w s).trans hw) es
  have htold := h.told
  rw [Told, hlisten] at htold
  refine ⟨hlisten ▸ h.agrees.mem_callbacks_iff, h.agrees.fds, h.agrees.counts, fun hreturned => ?_,
    hlisten ▸ h.agrees.orderly, h.agrees.serials, ?_, ?_⟩
  · have hnone : r.1.conns.keys = ∅ := by
      ext fd
      simp [Finmap.mem_keys, h.left hreturned fd]
    rw [h.agrees.counts, hnone, Finset.card_empty, Nat.add_zero]
  · intro l₁ fds l₂ l₃ hlog hl₂
    rw [hlog, ← List.cons_append, ← List.append_assoc, read, List.foldlM_append] at htold
    obtain ⟨s, hs, -⟩ := Option.bind_eq_some_iff.mp htold
    exact ⟨s.due, (due_of_read hs hl₂).symm⟩
  · intro l₁ fds l₂ hlog hl₂ hphase
    rw [hphase, hlog] at htold
    have := due_of_read htold hl₂
    rw [this]
    exact (List.append_nil _).symm

/-- A connection is accepted. Then it hangs up, and in the same batch its descriptor is used again. -/
def reused : List (Signal Unit) :=
  [.wait (some [{ fd := 3 }]), .dispatch ⟨0, [], [], [], ()⟩, .accept (.accepted 5 [] 0), .accept .failed,
    .tick 0 [5], .close, .wait (some [{ fd := 5, hangup := true }, { fd := 3 }]),
    .dispatch ⟨0, [], [], [], ()⟩, .dispatch ⟨0, [], [], [], ()⟩, .accept (.accepted 5 [] 0)]

theorem events_reach_owners_reused :
    let r := Reactive.run (Worker.step noRoutes) (Worker.start 3) reused
    r.2.count .connectionOpened = 2 ∧ r.1.conns.keys.card = 1 := by
  have hconns : ∀ (c : Conn) (fd : ℤ), fd ∈ [5] ↔ fd ∈ Finmap.insert 5 c (∅ : Finmap fun _ : ℤ => Conn) := by
    intro c fd
    rw [Finmap.mem_insert, List.mem_singleton, or_iff_left Finmap.notMem_empty]
  have hes : Reactive.Obeys (Worker.step noRoutes) Permitted (Worker.start 3) [] reused :=
    ⟨⟨by decide, by decide⟩, trivial, rfl, trivial, ⟨by decide, hconns _⟩, trivial,
      ⟨by decide, by decide⟩, trivial, trivial, rfl, trivial⟩
  obtain ⟨-, -, hcount, -⟩ := events_reach_owners noRoutes 3 reused hes
  have hopened : (Reactive.run (Worker.step noRoutes) (Worker.start 3) reused).2.count .connectionOpened
      = 2 := by decide
  have hclosed : (Reactive.run (Worker.step noRoutes) (Worker.start 3) reused).2.count .connectionClosed
      = 1 := by decide
  refine ⟨hopened, ?_⟩
  omega

end ApiGateway.Core.Loop
