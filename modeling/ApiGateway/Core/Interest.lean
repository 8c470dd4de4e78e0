import ApiGateway.Common.Progress
import ApiGateway.Core.Connections

/-!
# What a connection is registered for

`onAccept` registers a connection for `EPOLLIN`, and `flushIfPossible` adds `EPOLLOUT` when `send` would block
and takes it back when everything is sent. Between two events, `EPOLLOUT` is registered exactly while there are
bytes to send (`Watched`): in the middle of an event it may be missing, but not too much (`Awaited`).

So the kernel is asked for an event as long as something is left, and every response gets out, if a socket
that is asked for takes bytes again and again.

Reference: `Worker::flushIfPossible` in `src/core/Gateway.cpp`, `EventLoop::modify` in
`src/core/EventLoop.cpp`.
-/

namespace ApiGateway.Core

open Str Http

variable {σ ρ : Type*} (sys : Subsystems σ ρ) {c : ClientConnection} {l es : List Effect}

/-! ## The registered events -/

/-- An effect and the registered events: is `EPOLLOUT` among them? -/
def Effect.watch (epollout : Bool) : Effect → Bool
  | .registered epollout' => epollout'
  | _ => epollout

/-- `EPOLLOUT` is registered for a connection after these effects. -/
def watchesWrites (l : List Effect) : Bool := l.foldl Effect.watch false

theorem watchesWrites_append (l es : List Effect) :
    watchesWrites (l ++ es) = es.foldl Effect.watch (watchesWrites l) := List.foldl_append

theorem watchesWrites_pieces (l : List Effect) (chunks : List Bytes) (epollout : Bool) :
    watchesWrites (l ++ (chunks.map .sent ++ [.registered epollout])) = epollout := by
  rw [← List.append_assoc, watchesWrites_append]
  rfl

/-- **Between two events**, `EPOLLOUT` is registered exactly while there are bytes to send. -/
def Watched (conn : Option ClientConnection) (l : List Effect) : Prop :=
  ∀ c, conn = some c → watchesWrites l = c.hasPendingWrite

/-- Before a flush, `EPOLLOUT` is not registered without need. -/
def Awaited (c : ClientConnection) (l : List Effect) : Prop :=
  watchesWrites l = true → c.hasPendingWrite = true

theorem Watched.awaited (h : Watched (some c) l) : Awaited c l := fun hwatches =>
  (h c rfl).symm.trans hwatches

theorem watched_none (l : List Effect) : Watched none l := fun c hc => by simp at hc

/-- A flush registers what is needed. -/
theorem Awaited.flush (h : Awaited c l) (sends : List SendResult) :
    Watched (c.flushIfPossible sends).1 (l ++ (c.flushIfPossible sends).2) := by
  unfold ClientConnection.flushIfPossible
  split
  · obtain ⟨chunks, n, -, hends⟩ := flushLoop_ends sends c
    generalize ClientConnection.flushLoop sends c = r at hends
    cases hends with
    | waits hpending =>
      rintro _ ⟨⟩
      rw [watchesWrites_pieces, hpending]
    | closes => exact watched_none _
    | drains =>
      rintro _ ⟨⟩
      rw [watchesWrites_pieces]
      rfl
  · rename_i hpending
    rintro _ ⟨⟩
    rw [List.append_nil, Bool.eq_false_iff.mpr hpending, Bool.eq_false_iff]
    exact fun hwatches => hpending (h hwatches)

/-- A response that is queued has to be sent as well. -/
theorem Awaited.queue (h : Awaited c l) (p : HttpParser) (wire : Bytes) (closeAfter : Bool)
    (hes : ∀ b, es.foldl Effect.watch b = b) :
    Awaited (({ c with parser := p } : ClientConnection).appendWrite wire closeAfter) (l ++ es) := by
  intro hwatches
  rw [watchesWrites_append, hes] at hwatches
  have hlt : c.writeOffset < c.pendingWrite.length := of_decide_eq_true (h hwatches)
  refine decide_eq_true (hlt.trans_le ?_)
  simp [ClientConnection.appendWrite]

theorem Awaited.serve (fuel : ℕ) (h : Awaited c l) (gw : σ) :
    Awaited (serveLoop sys fuel c gw).1 (l ++ (serveLoop sys fuel c gw).2) := by
  refine serveLoop_rule sys (P := Awaited) (R := Awaited) id ?_ ?_ ?_ ?_ fuel h gw
  · exact fun h _ => h
  · exact fun h _ => h.queue _ _ true fun _ => rfl
  · exact fun resp id h _ => h.queue _ _ true fun _ => rfl
  · exact fun resp id h _ => h.queue _ _ false fun _ => rfl

/-- Requests are read and answered, and the answers are flushed. -/
theorem Watched.onReadable (h : Watched (some c) l) (now : ℤ) (recvs : List RecvResult)
    (sends : List SendResult) (gw : σ) :
    Watched (onReadable sys now recvs sends gw c).1 (l ++ (onReadable sys now recvs sends gw c).2) := by
  unfold Core.onReadable
  cases hrecv : recvLoop now recvs c with
  | none => exact watched_none _
  | some c' =>
    obtain ⟨data, t, rfl⟩ := exists_of_recvLoop hrecv
    have hserved := Awaited.serve sys (c := { c with parser := c.parser.append data, lastActivity := t })
      ((c.parser.append data).buffer.length + 1) h.awaited gw
    dsimp only [andThen]
    rw [← List.append_assoc]
    exact hserved.flush sends

theorem Watched.onEvent {conn : Option ClientConnection} (h : Watched conn l) (e : Event σ) :
    Watched (onEvent sys conn e).1 (l ++ (onEvent sys conn e).2) := by
  cases conn with
  | none =>
    rw [onEvent_none]
    exact watched_none _
  | some c =>
    cases e with
    | sweep now =>
      simp only [Core.onEvent, andThen, List.nil_append]
      split
      · exact watched_none _
      · simpa using h
    | poll hangup readable writable now recvs sends sendsLater gw =>
      simp only [Core.onEvent, andThen, List.nil_append]
      cases hangup with
      | true => exact watched_none _
      | false =>
        have hread : ∀ r, r = (if readable then Core.onReadable sys now recvs sends gw c
            else (some c, [])) → Watched r.1 (l ++ r.2) := by
          rintro r rfl
          cases readable with
          | false => simpa using h
          | true => exact h.onReadable sys now recvs sends gw
        generalize (if readable then Core.onReadable sys now recvs sends gw c else (some c, [])) = r
          at hread
        obtain ⟨conn, es⟩ := r
        have hafter := hread _ rfl
        cases conn with
        | none => exact watched_none _
        | some c' =>
          cases writable with
          | false => simpa using hafter
          | true =>
            simp only [Bool.false_eq_true, if_false, if_true, ← List.append_assoc]
            exact hafter.awaited.flush sendsLater

/-! ## Sending -/

/-- The part of an event before `onWritable`, and `onWritable`. -/
theorem onEvent_writable (readable : Bool) (now : ℤ) (recvs : List RecvResult)
    (sends sendsLater : List SendResult) (gw : σ) (c : ClientConnection) :
    onEvent sys (some c) (.poll false readable true now recvs sends sendsLater gw)
      = andThen (onEvent sys (some c) (.poll false readable false now recvs sends [] gw))
          (ClientConnection.flushIfPossible sendsLater) := by
  simp only [onEvent, andThen, List.nil_append, Bool.false_eq_true, if_false, if_true]
  generalize (if readable then onReadable sys now recvs sends gw c else (some c, [])) = r
  obtain ⟨_ | c', es⟩ := r
  · rfl
  · simp

/-- A socket that takes a byte gets one, if there is one. -/
theorem sentBytes_flushIfPossible (h : c.hasPendingWrite = true) (n : ℕ) (later : List SendResult) :
    sentBytes (c.flushIfPossible (.sent (n + 1) :: later)).2 ≠ [] := by
  have hunsent : c.unsent ≠ [] := fun hnil => by
    rw [(c.hasPendingWrite_eq_false_iff).mpr hnil] at h
    cases h
  rw [ClientConnection.flushIfPossible, if_pos h, ClientConnection.flushLoop, if_pos h]
  simp [sentBytes, hunsent]

/-- **An event of a socket that takes bytes.** The connection is closed, or everything that was queued before
has been sent, or another part of it is. -/
theorem progress_writable (h : Delivered (some c) l) (readable : Bool) (now : ℤ)
    (recvs : List RecvResult) (sends : List SendResult) (n : ℕ) (later : List SendResult) (gw : σ) :
    let r := onEvent sys (some c)
      (.poll false readable true now recvs sends (.sent (n + 1) :: later) gw)
    r.1 = none ∨ queuedBytes l <+: sentBytes (l ++ r.2) ∨ sentBytes r.2 ≠ [] := by
  intro r
  have hr : r = andThen _ _ := onEvent_writable sys readable now recvs sends (.sent (n + 1) :: later) gw c
  have hbefore := h.onEvent sys (.poll false readable false now recvs sends [] gw)
  generalize onEvent sys (some c) (.poll false readable false now recvs sends [] gw) = r₁ at hr hbefore
  obtain ⟨_ | c', es⟩ := r₁
  · exact .inl (by rw [hr]; rfl)
  · have hlog : r.2 = es ++ (c'.flushIfPossible (.sent (n + 1) :: later)).2 := by rw [hr]; rfl
    cases hpending : c'.hasPendingWrite with
    | false =>
      -- what was queued before has been sent by `onReadable`
      rw [c'.hasPendingWrite_eq_false_iff] at hpending
      rw [Delivered, hpending, List.append_nil, sentBytes_append, queuedBytes_append] at hbefore
      refine .inr (.inl ⟨queuedBytes es ++ sentBytes (c'.flushIfPossible (.sent (n + 1) :: later)).2, ?_⟩)
      rw [hlog, sentBytes_append, sentBytes_append, ← List.append_assoc, ← List.append_assoc, hbefore]
    | true =>
      refine .inr (.inr ?_)
      rw [hlog, sentBytes_append]
      exact List.append_ne_nil_of_right_ne_nil _ (sentBytes_flushIfPossible hpending n later)

end ApiGateway.Core

namespace ApiGateway.Core.Loop

open Str Http

variable {σ ρ : Type*} (sys : Subsystems σ ρ)

/-! ## Workers -/

theorem watched_of_ownRun {sys : Subsystems σ ρ} {conn : Option ClientConnection} {l : List Effect}
    (h : OwnRun sys conn l) : Watched conn l := by
  refine OwnRun.invariant (fun start hfresh c hc => ?_) (fun _ _ e h => h.onEvent sys e) h
  obtain rfl := Option.some.inj hc
  rw [ClientConnection.hasPendingWrite, hfresh.pendingWrite, hfresh.writeOffset]
  rfl

/-- **A connection is registered for what it needs.** In every run of a worker, between any two steps,
`EPOLLOUT` is registered for an open connection if and only if a part of its responses has not been sent
yet. -/
theorem interest_follows_pending (listenFd : ℤ) (es : List (Signal σ)) :
    let r := Reactive.run (Worker.step sys) (Worker.start listenFd) es
    ∀ fd c, r.1.conns.lookup fd = some c →
      (watchesWrites (effects c.serial r.2) = true ↔
        sentBytes (effects c.serial r.2) ≠ queuedBytes (effects c.serial r.2)) := by
  intro r fd c hc
  have hwatched := watched_of_ownRun ((connections_run sys listenFd es).1 fd c hc) c.conn rfl
  have hdelivered : sentBytes (effects c.serial r.2) ++ c.conn.unsent
      = queuedBytes (effects c.serial r.2) := (worker_delivers sys listenFd es).1 fd c hc
  rw [hwatched, ← hdelivered, ne_eq, List.self_eq_append_right, ← c.conn.hasPendingWrite_eq_false_iff,
    Bool.not_eq_false]

/-- The connection with a number is not open. -/
def Gone (w : Worker) (serial : ℕ) : Prop := ∀ fd c, w.conns.lookup fd = some c → c.serial ≠ serial

/-- The worker turns to an event of a connection which says that its socket takes bytes, and it does. -/
def TakesBytes (w : Worker) (serial : ℕ) : Signal σ → Prop
  | .dispatch input => ∃ ready rest fd c n later, w.phase = .dispatching (ready :: rest) ∧
      w.loop.callbacks.lookup ready.fd = some (.onEvent fd) ∧ w.conns.lookup fd = some c ∧
      c.serial = serial ∧ ready.hangup = false ∧ ready.writable = true ∧
      input.sendsLater = .sent (n + 1) :: later
  | _ => False

/-- What such an event does with the connection. -/
theorem step_of_takesBytes {w : Worker} {serial : ℕ} {e : Signal σ} (h : TakesBytes w serial e) :
    ∃ fd c, w.conns.lookup fd = some c ∧ c.serial = serial ∧
      ∃ readable now recvs sends n later gw,
        let r := Core.onEvent sys (some c.conn)
          (.poll false readable true now recvs sends (.sent (n + 1) :: later) gw)
        effects serial (w.step sys e).2 = r.2 ∧
          (r.1 = none → (w.step sys e).1.conns = w.conns.erase fd) := by
  cases e with
  | dispatch input =>
    obtain ⟨ready, rest, fd, c, n, later, hphase, hcallback, hc, rfl, hhangup, hwritable, hsends⟩ := h
    refine ⟨fd, c, hc, rfl, ready.readable, input.now, input.recvs, input.sends, n, later, input.gw, ?_⟩
    have hstep : w.step sys (.dispatch input)
        = Worker.onEvent sys { w with phase := .dispatching rest } fd ready input := by
      simp only [Worker.step, hphase, Worker.dispatch, hcallback]
    have heffects : ∀ l : List Effect, effects c.serial
        (.delivered ready.fd (.client c.serial) :: l.map (.did c.serial)) = l :=
      fun l => effects_did_self c.serial l
    rw [hstep, Worker.onEvent]
    simp only [hc, hhangup, hwritable, hsends]
    split
    · rename_i conn hconn
      exact ⟨heffects _, fun hnone => by simp [hconn] at hnone⟩
    · have hin : fd ∈ w.conns := Finmap.mem_of_lookup_eq_some hc
      rw [Worker.closeConnection, if_pos hin]
      refine ⟨?_, fun _ => rfl⟩
      rw [effects_append, heffects]
      exact List.append_nil _
  | _ => exact h.elim

/-- Where `EPOLLOUT` is not registered, everything has been sent. -/
theorem Apart.sent_of_quiet {sys : Subsystems σ ρ} {w : Worker} {log : List Act} {serial : ℕ}
    (h : Apart sys w log) (hquiet : watchesWrites (effects serial log) = false) :
    Gone w serial ∨ sentBytes (effects serial log) = queuedBytes (effects serial log) := by
  by_cases hgone : Gone w serial
  · exact .inl hgone
  · simp only [Gone, not_forall, not_not] at hgone
    obtain ⟨fd, c, hc, rfl⟩ := hgone
    have hwatched := watched_of_ownRun (h.present fd c hc) c.conn rfl
    have hdelivered : _ ++ c.conn.unsent = _ := delivered_of_ownRun (h.present fd c hc)
    rw [(c.conn.hasPendingWrite_eq_false_iff).mp (hwatched.symm.trans hquiet), List.append_nil]
      at hdelivered
    exact .inr hdelivered

/-- Where a socket takes bytes, some are sent that were not, unless there are none. -/
theorem Apart.progress {sys : Subsystems σ ρ} {w : Worker} {log : List Act} {serial : ℕ} {e : Signal σ}
    (h : Apart sys w log) (htakes : TakesBytes w serial e) :
    Gone (w.step sys e).1 serial ∨
      queuedBytes (effects serial log) <+: sentBytes (effects serial (log ++ (w.step sys e).2)) ∨
      sentBytes (effects serial (w.step sys e).2) ≠ [] := by
  obtain ⟨fd, c, hc, rfl, readable, now, recvs, sends, n, later, gw, heffects, hclosed⟩ :=
    step_of_takesBytes sys htakes
  rw [effects_append, heffects]
  rcases progress_writable sys (delivered_of_ownRun (h.present fd c hc)) readable now recvs sends n later
    gw with hnone | hsent
  · refine .inl fun fd' c' hc' heq => ?_
    rw [hclosed hnone] at hc'
    -- no other connection has the number
    by_cases hfd : fd' = fd
    · subst hfd
      rw [Finmap.lookup_erase] at hc'
      cases hc'
    · rw [Finmap.lookup_erase_ne hfd] at hc'
      exact hfd (h.distinct fd' fd c' c hc' hc heq)
  · exact .inr hsent

/-- **Every response gets out.** In an endless run of a worker, take a connection whose socket takes bytes
again and again while `EPOLLOUT` is registered for it. Whatever is queued at some moment has been sent at a
later one, or the connection is closed. -/
theorem responses_sent_eventually (listenFd : ℤ) (es : ℕ → Signal σ) (serial : ℕ)
    (hfair : ∀ n, ∃ m, n ≤ m ∧
      let r := Reactive.moment (Worker.step sys) (Worker.start listenFd) es m
      (Gone r.1 serial ∨ watchesWrites (effects serial r.2) = false ∨ TakesBytes r.1 serial (es m)))
    (n : ℕ) :
    ∃ m, n ≤ m ∧
      let r := Reactive.moment (Worker.step sys) (Worker.start listenFd) es
      (Gone (r m).1 serial ∨
        queuedBytes (effects serial (r n).2) <+: sentBytes (effects serial (r m).2)) := by
  let r := Reactive.moment (Worker.step sys) (Worker.start listenFd) es
  let sent m := sentBytes (effects serial (r m).2)
  let queued m := queuedBytes (effects serial (r m).2)
  have happart : ∀ m, Apart sys (r m).1 (r m).2 := fun m =>
    Reactive.run_invariant (apart_start sys listenFd) (fun _ _ e h => h.step e) _
  have hr : ∀ m, r (m + 1) = (((r m).1.step sys (es m)).1, (r m).2 ++ ((r m).1.step sys (es m)).2) :=
    Reactive.moment_succ _ _ _
  have hnext : ∀ m, sent (m + 1)
      = sent m ++ sentBytes (effects serial ((r m).1.step sys (es m)).2) := fun m => by
    simp only [sent, hr, effects_append, sentBytes_append]
  have hsent : ∀ m, sent m <+: queued m := fun m => (worker_delivers sys listenFd _).2 serial
  have hqueued : ∀ {m}, n ≤ m → queued n <+: queued m := fun h => by
    obtain ⟨acts, hacts⟩ := Reactive.moment_log_prefix (Worker.step sys) (Worker.start listenFd) es h
    refine ⟨queuedBytes (effects serial acts), ?_⟩
    simp only [queued, r]
    rw [← hacts, effects_append, queuedBytes_append]
  -- the measure is what is left of the bytes that were queued at moment `n`
  refine Progress.eventually_of_measure (P := fun m => Gone (r m).1 serial ∨ queued n <+: sent m)
    (μ := fun m => (queued n).length - (sent m).length) (fun m => ?_) (fun k => ?_) n
  · rw [hnext, List.length_append]
    omega
  · obtain ⟨m, hm, hcase⟩ := hfair (max k n)
    obtain ⟨hk, hn⟩ := max_le_iff.mp hm
    rcases hcase with hgone | hquiet | htakes
    · exact ⟨m, hk, .inl (.inl hgone)⟩
    · refine ⟨m, hk, .inl ((happart m).sent_of_quiet hquiet |>.imp_right fun hall => ?_)⟩
      have hall : sent m = queued m := hall
      exact hall ▸ hqueued hn
    · rcases (happart m).progress htakes with hgone | hdone | hmore
      · exact ⟨m + 1, by omega, .inl (.inl (hr m ▸ hgone))⟩
      · have hdone : queued m <+: sent (m + 1) := by
          simp only [sent, hr]
          exact hdone
        exact ⟨m + 1, by omega, .inl (.inr ((hqueued hn).trans hdone))⟩
      · by_cases hlen : (queued n).length ≤ (sent m).length
        · exact ⟨m, hk, .inl (.inr (List.prefix_of_prefix_length_le (hqueued hn) (hsent m) hlen))⟩
        · refine ⟨m, hk, .inr ?_⟩
          have hpos : 0 < (sentBytes (effects serial ((r m).1.step sys (es m)).2)).length :=
            List.length_pos_iff.mpr hmore
          rw [hnext, List.length_append]
          omega

/-- A client whose socket takes ten bytes of a response at first, and the rest later on. -/
def slowClient : List (Signal Unit) :=
  [.wait (some [{ fd := 3 }]), .dispatch ⟨0, [], [], [], ()⟩, .accept (.accepted 5 [] 0), .accept .failed,
    .tick 0 [5], .close, .wait (some [{ fd := 5, readable := true }]),
    .dispatch ⟨0, [.data (bytes "GET /gateway/health HTTP/1.1\r\n\r\n")], [.sent 10], [], ()⟩,
    .tick 0 [5], .close, .wait (some [{ fd := 5, writable := true }]),
    .dispatch ⟨0, [], [], [.sent 1000], ()⟩]

theorem responses_sent_eventually_slowClient :
    let r := Reactive.moment (Worker.step noRoutes) (Worker.start 3) fun n =>
      slowClient.getD n (.wait none)
    watchesWrites (effects 0 (r 8).2) = true ∧
      ∃ m, 8 ≤ m ∧
        (Gone (r m).1 0 ∨ queuedBytes (effects 0 (r 8).2) <+: sentBytes (effects 0 (r m).2)) := by
  intro r
  -- nothing happens after the events of the list
  have hlast : ∀ m, 12 ≤ m → r m = r 12 := by
    intro m hm
    induction m, hm using Nat.le_induction with
    | base => rfl
    | succ m hm ih =>
      have hidle : slowClient.getD m (.wait none) = .wait none := by
        rw [List.getD_eq_getElem?_getD, List.getElem?_eq_none (by exact hm), Option.getD_none]
      simp only [r] at ih ⊢
      rw [Reactive.moment_succ, hidle, ← ih]
      exact Prod.ext rfl (List.append_nil _)
  have hquiet : watchesWrites (effects 0 (r 12).2) = false := by decide
  refine ⟨by decide, responses_sent_eventually noRoutes 3 _ 0 (fun n => ?_) 8⟩
  refine ⟨max n 12, le_max_left _ _, .inr (.inl ?_)⟩
  rw [← hquiet, ← hlast _ (le_max_right n 12)]

end ApiGateway.Core.Loop
