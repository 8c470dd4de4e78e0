import ApiGateway.Core.Delivery
import ApiGateway.Core.EventLoop

/-!
# The connections of a worker

A worker's run is a shuffle of the runs of its connections: `effects` takes what was done with one
connection out of the worker's log, and `connections_run` says that it is the log of a run of `onEvent` on
this connection alone, from `accept` on. Nothing is assumed of the kernel, since the worker's own tables keep
the connections apart. What holds of every run of a connection so holds of every connection of a worker, as
`worker_delivers` has it for the delivery of responses.
-/

namespace ApiGateway.Core.Loop

open Str Http

/-! ## What was done with a connection -/

/-- The effects of a connection in the log. -/
def effects (serial : ℕ) (log : List Act) : List Effect :=
  log.filterMap fun
    | .did serial' e => if serial' = serial then some e else none
    | _ => none

theorem effects_append (serial : ℕ) (log acts : List Act) :
    effects serial (log ++ acts) = effects serial log ++ effects serial acts :=
  List.filterMap_append

theorem effects_did_self (serial : ℕ) (l : List Effect) : effects serial (l.map (.did serial)) = l := by
  simp [effects, List.filterMap_map]

theorem effects_did_of_ne {serial serial' : ℕ} (h : serial' ≠ serial) (l : List Effect) :
    effects serial (l.map (.did serial')) = [] := by
  simp [effects, List.filterMap_map, h]

variable {σ ρ : Type*} (sys : Subsystems σ ρ)

/-- A connection that has just been accepted. -/
structure Fresh (c : ClientConnection) : Prop where
  parser : c.parser = {}
  pendingWrite : c.pendingWrite = []
  writeOffset : c.writeOffset = 0
  closeAfterWrite : c.closeAfterWrite = false

/-- A run of a connection of its own, with its state and its log. -/
def OwnRun (conn : Option ClientConnection) (l : List Effect) : Prop :=
  ∃ start events, Fresh start ∧ Reactive.run (Core.onEvent sys) (some start) events = (conn, l)

theorem ownRun_accept (clientIp : Bytes) (accepted : ℤ) :
    OwnRun sys (some { clientIp, lastActivity := accepted }) [] :=
  ⟨_, [], ⟨rfl, rfl, rfl, rfl⟩, rfl⟩

variable {sys}

theorem OwnRun.event {conn : Option ClientConnection} {l : List Effect} (h : OwnRun sys conn l)
    (e : Event σ) :
    OwnRun sys (Core.onEvent sys conn e).1 (l ++ (Core.onEvent sys conn e).2) := by
  obtain ⟨start, events, hfresh, hrun⟩ := h
  exact ⟨start, events ++ [e], hfresh, by rw [Reactive.run_concat, hrun]⟩

/-- What every event keeps, a connection has. -/
theorem OwnRun.invariant {I : Option ClientConnection → List Effect → Prop}
    (haccept : ∀ start, Fresh start → I (some start) [])
    (hevent : ∀ conn l e, I conn l → I (Core.onEvent sys conn e).1 (l ++ (Core.onEvent sys conn e).2))
    {conn : Option ClientConnection} {l : List Effect} (h : OwnRun sys conn l) : I conn l := by
  obtain ⟨start, events, hfresh, hrun⟩ := h
  have := Reactive.run_invariant (haccept start hfresh) hevent events
  rwa [hrun] at this

/-! ## The worker's steps -/

variable (sys)

/-- **Every connection runs on its own.** The numbers tell the connections apart, and nothing is done with a
number that was not given out yet. -/
structure Apart (w : Worker) (log : List Act) : Prop where
  serial_lt : ∀ fd c, w.conns.lookup fd = some c → c.serial < w.accepted
  distinct : ∀ fd fd' c c', w.conns.lookup fd = some c → w.conns.lookup fd' = some c' →
    c.serial = c'.serial → fd = fd'
  unborn : ∀ serial, w.accepted ≤ serial → effects serial log = []
  present : ∀ fd c, w.conns.lookup fd = some c → OwnRun sys (some c.conn) (effects c.serial log)
  everyone : ∀ serial, ∃ conn, OwnRun sys conn (effects serial log)

namespace Apart

variable {sys} {w : Worker} {log acts : List Act} {fd : ℤ} {c : Conn}

theorem goTo (h : Apart sys w log) (phase : Phase) : Apart sys { w with phase } log :=
  ⟨h.serial_lt, h.distinct, h.unborn, h.present, h.everyone⟩

theorem quiet (h : Apart sys w log) (hacts : ∀ serial, effects serial acts = []) :
    Apart sys w (log ++ acts) := by
  have hsame : ∀ serial, effects serial (log ++ acts) = effects serial log := by
    intro serial
    rw [effects_append, hacts, List.append_nil]
  refine ⟨h.serial_lt, h.distinct, ?_, ?_, ?_⟩
  · simpa only [hsame] using h.unborn
  · simpa only [hsame] using h.present
  · simpa only [hsame] using h.everyone

theorem accept (h : Apart sys w log) (fd : ℤ) (ip : Bytes) (now : ℤ) :
    Apart sys (w.onAccept fd ip now).1 (log ++ (w.onAccept fd ip now).2) := by
  refine quiet ?_ fun _ => rfl
  have hcases : ∀ fd' c', (w.onAccept fd ip now).1.conns.lookup fd' = some c' →
      (fd' = fd ∧ c' = ⟨fd, w.accepted, { clientIp := ip, lastActivity := now }⟩) ∨
        w.conns.lookup fd' = some c' := by
    intro fd' c' hc'
    simp only [Worker.onAccept] at hc'
    by_cases hfd : fd' = fd
    · subst hfd
      rw [Finmap.lookup_insert, Option.some.injEq] at hc'
      exact .inl ⟨rfl, hc'.symm⟩
    · rw [Finmap.lookup_insert_of_ne _ hfd] at hc'
      exact .inr hc'
  refine ⟨?_, ?_, fun serial hserial => h.unborn serial (Nat.le_of_succ_le hserial), ?_, h.everyone⟩
  · intro fd' c' hc'
    rcases hcases fd' c' hc' with ⟨-, rfl⟩ | hold
    · exact Nat.lt_succ_self _
    · exact Nat.lt_succ_of_lt (h.serial_lt fd' c' hold)
  · -- the new number is above those that are in use
    intro fd₁ fd₂ c₁ c₂ hc₁ hc₂ hserial
    rcases hcases fd₁ c₁ hc₁ with ⟨rfl, rfl⟩ | hold₁
    · rcases hcases fd₂ c₂ hc₂ with ⟨rfl, -⟩ | hold₂
      · rfl
      · exact absurd hserial (h.serial_lt fd₂ c₂ hold₂).ne'
    · rcases hcases fd₂ c₂ hc₂ with ⟨rfl, rfl⟩ | hold₂
      · exact absurd hserial (h.serial_lt fd₁ c₁ hold₁).ne
      · exact h.distinct fd₁ fd₂ c₁ c₂ hold₁ hold₂ hserial
  · intro fd' c' hc'
    rcases hcases fd' c' hc' with ⟨-, rfl⟩ | hold
    · rw [h.unborn w.accepted le_rfl]
      exact ownRun_accept sys ip now
    · exact h.present fd' c' hold

theorem close (h : Apart sys w log) (fd : ℤ) :
    Apart sys (w.closeConnection fd).1 (log ++ (w.closeConnection fd).2) := by
  unfold Worker.closeConnection
  split
  · refine quiet ?_ fun _ => rfl
    have hsub : ∀ fd' c', (w.conns.erase fd).lookup fd' = some c' → w.conns.lookup fd' = some c' := by
      intro fd' c' hc'
      by_cases hfd : fd' = fd
      · subst hfd
        rw [Finmap.lookup_erase] at hc'
        cases hc'
      · rwa [Finmap.lookup_erase_ne hfd] at hc'
    exact ⟨fun fd' c' hc' => h.serial_lt fd' c' (hsub fd' c' hc'),
      fun fd₁ fd₂ c₁ c₂ hc₁ hc₂ => h.distinct fd₁ fd₂ c₁ c₂ (hsub fd₁ c₁ hc₁) (hsub fd₂ c₂ hc₂),
      h.unborn, fun fd' c' hc' => h.present fd' c' (hsub fd' c' hc'), h.everyone⟩
  · exact h.quiet fun _ => rfl

/-- **An event of a connection.** It goes on with what the event has made of it, or is gone. -/
theorem event (h : Apart sys w log) (hc : w.conns.lookup fd = some c) (e : Event σ) {w' : Worker}
    (haccepted : w'.accepted = w.accepted)
    (hothers : ∀ fd', fd' ≠ fd → w'.conns.lookup fd' = w.conns.lookup fd')
    (hself : ∀ c', w'.conns.lookup fd = some c' →
      c'.serial = c.serial ∧ (Core.onEvent sys (some c.conn) e).1 = some c'.conn)
    (hacts : ∀ serial, effects serial acts
      = if serial = c.serial then (Core.onEvent sys (some c.conn) e).2 else []) :
    Apart sys w' (log ++ acts) := by
  have hsame : ∀ serial, serial ≠ c.serial → effects serial (log ++ acts) = effects serial log := by
    intro serial hne
    rw [effects_append, hacts, if_neg hne, List.append_nil]
  have hrun : OwnRun sys (Core.onEvent sys (some c.conn) e).1 (effects c.serial (log ++ acts)) := by
    rw [effects_append, hacts, if_pos rfl]
    exact (h.present fd c hc).event e
  -- a connection after the event, by the one that had its number before
  have hbefore : ∀ fd' c', w'.conns.lookup fd' = some c' →
      ∃ c₀, w.conns.lookup fd' = some c₀ ∧ c'.serial = c₀.serial := by
    intro fd' c' hc'
    by_cases hfd : fd' = fd
    · subst hfd
      exact ⟨c, hc, (hself c' hc').1⟩
    · exact ⟨c', (hothers fd' hfd).symm.trans hc', rfl⟩
  constructor
  · intro fd' c' hc'
    obtain ⟨c₀, hc₀, hserial⟩ := hbefore fd' c' hc'
    rw [haccepted, hserial]
    exact h.serial_lt fd' c₀ hc₀
  · intro fd₁ fd₂ c₁ c₂ hc₁ hc₂ hserial
    obtain ⟨c₁', hc₁', h₁⟩ := hbefore fd₁ c₁ hc₁
    obtain ⟨c₂', hc₂', h₂⟩ := hbefore fd₂ c₂ hc₂
    exact h.distinct fd₁ fd₂ c₁' c₂' hc₁' hc₂' (h₁.symm.trans (hserial.trans h₂))
  · intro serial hserial
    rw [haccepted] at hserial
    rw [hsame serial (lt_of_lt_of_le (h.serial_lt fd c hc) hserial).ne', h.unborn serial hserial]
  · intro fd' c' hc'
    by_cases hfd : fd' = fd
    · subst hfd
      obtain ⟨hserial, hconn⟩ := hself c' hc'
      rwa [hserial, ← hconn]
    · have hold := (hothers fd' hfd).symm.trans hc'
      have hne : c'.serial ≠ c.serial := fun heq => hfd (h.distinct fd' fd c' c hold hc heq)
      rw [hsame _ hne]
      exact h.present fd' c' hold
  · intro serial
    by_cases heq : serial = c.serial
    · exact ⟨_, heq ▸ hrun⟩
    · rw [hsame serial heq]
      exact h.everyone serial

theorem onEvent (h : Apart sys w log) (fd : ℤ) (ready : Ready) (input : Input σ) :
    Apart sys (Worker.onEvent sys w fd ready input).1
      (log ++ (Worker.onEvent sys w fd ready input).2) := by
  unfold Worker.onEvent
  split
  · exact h.quiet fun _ => rfl
  · rename_i c hc
    have hacts : ∀ (serial : ℕ) (l : List Effect),
        effects serial (.delivered ready.fd (.client c.serial) :: l.map (.did c.serial))
          = if serial = c.serial then l else [] := by
      intro serial l
      show effects serial (l.map (.did c.serial)) = _
      split
      · rename_i heq
        rw [heq, effects_did_self]
      · rename_i hne
        exact effects_did_of_ne (Ne.symm hne) l
    dsimp only
    split
    · rename_i conn hconn
      refine h.event hc _ rfl (fun fd' hfd => Finmap.lookup_insert_of_ne _ hfd) ?_ (hacts · _)
      intro c' hc'
      obtain rfl : { c with conn } = c' := by simpa using hc'
      exact ⟨rfl, hconn⟩
    · have hin : fd ∈ w.conns := Finmap.mem_of_lookup_eq_some hc
      rw [Worker.closeConnection, if_pos hin]
      refine h.event hc (.poll ready.hangup ready.readable ready.writable input.now input.recvs
        input.sends input.sendsLater input.gw) rfl (fun fd' hfd => Finmap.lookup_erase_ne hfd) ?_ ?_
      · intro c' hc'
        rw [Finmap.lookup_erase] at hc'
        cases hc'
      · intro serial
        rw [effects_append, hacts]
        exact List.append_nil _

/-- **One step of the worker.** -/
theorem step (h : Apart sys w log) (e : Signal σ) :
    Apart sys (w.step sys e).1 (log ++ (w.step sys e).2) := by
  have hstay : Apart sys w (log ++ []) := h.quiet fun _ => rfl
  cases e with
  | wait result =>
    cases result with
    | none => exact hstay
    | some batch =>
      rw [Worker.step]
      split
      · exact (h.goTo _).quiet fun _ => rfl
      · exact hstay
  | dispatch input =>
    rw [Worker.step]
    split
    · rename_i ready rest hphase
      rw [Worker.dispatch]
      split
      · exact (h.goTo _).quiet fun _ => rfl
      · exact (h.goTo _).quiet fun _ => rfl
      · exact (h.goTo _).onEvent _ ready input
    · exact hstay
  | accept result =>
    cases result with
    | accepted fd ip now =>
      rw [Worker.step]
      split
      · exact h.accept fd ip now
      · exact hstay
    | interrupted => exact hstay
    | failed =>
      rw [Worker.step]
      split
      · exact (h.goTo _).quiet fun _ => rfl
      · exact hstay
  | tick now order =>
    rw [Worker.step]
    split
    · exact (h.goTo _).quiet fun _ => rfl
    · exact hstay
  | close =>
    rw [Worker.step]
    split
    · exact (h.goTo _).close _
    · exact (h.goTo _).quiet fun _ => rfl
    · exact (h.goTo _).quiet fun _ => rfl
    · exact hstay
  | stop order =>
    rw [Worker.step]
    split
    · exact (h.goTo _).quiet fun _ => rfl
    · exact hstay

end Apart

/-! ## Every run -/

theorem apart_start (listenFd : ℤ) : Apart sys (Worker.start listenFd) [] := by
  have hnone : ∀ fd c, (Worker.start listenFd).conns.lookup fd ≠ some c := by
    intro fd c hc
    rw [Worker.start, Finmap.lookup_empty] at hc
    cases hc
  exact ⟨fun fd c hc => absurd hc (hnone fd c), fun fd _ c _ hc => absurd hc (hnone fd c), fun _ _ => rfl,
    fun fd c hc => absurd hc (hnone fd c), fun _ => ⟨_, ownRun_accept sys [] 0⟩⟩

/-- **The connections of a worker.** In every run of a worker, what was done with a connection is the log of
a run of this connection alone; a connection that is open is in the state of this run. -/
theorem connections_run (listenFd : ℤ) (es : List (Signal σ)) :
    let r := Reactive.run (Worker.step sys) (Worker.start listenFd) es
    (∀ fd c, r.1.conns.lookup fd = some c → OwnRun sys (some c.conn) (effects c.serial r.2)) ∧
      ∀ serial, ∃ conn, OwnRun sys conn (effects serial r.2) := by
  intro r
  have happart : Apart sys r.1 r.2 :=
    Reactive.run_invariant (apart_start sys listenFd) (fun _ _ e h => h.step e) es
  exact ⟨happart.present, happart.everyone⟩

theorem delivered_of_ownRun {sys : Subsystems σ ρ} {conn : Option ClientConnection} {l : List Effect}
    (h : OwnRun sys conn l) : Delivered conn l := by
  refine OwnRun.invariant (fun start hfresh => ?_) (fun _ _ e h => h.onEvent sys e) h
  simp [Delivered, ClientConnection.unsent, hfresh.pendingWrite, sentBytes, queuedBytes]

/-- **Every client of a worker gets its own responses**, and no byte is lost, duplicated or reordered. -/
theorem worker_delivers (listenFd : ℤ) (es : List (Signal σ)) :
    let r := Reactive.run (Worker.step sys) (Worker.start listenFd) es
    (∀ fd c, r.1.conns.lookup fd = some c → Delivered (some c.conn) (effects c.serial r.2)) ∧
      ∀ serial, sentBytes (effects serial r.2) <+: queuedBytes (effects serial r.2) := by
  intro r
  obtain ⟨hpresent, heveryone⟩ := connections_run sys listenFd es
  refine ⟨fun fd c hc => delivered_of_ownRun (hpresent fd c hc), fun serial => ?_⟩
  obtain ⟨conn, hrun⟩ := heveryone serial
  have := delivered_of_ownRun hrun
  cases conn with
  | none => exact this
  | some c => exact ⟨c.unsent, this⟩

end ApiGateway.Core.Loop
