import ApiGateway.Core.Closing

/-!
# Delivery of responses

What a client receives. The bytes that have been sent, followed by the bytes that wait in the buffer, are
the responses in the order in which they were queued (`Delivered`), whatever `send` takes at a time. The
responses are queued one for each result of the parser, in order (`Accounted`): the parser's results are
listed by `parseLoop`, which knows nothing of responses.
-/

namespace ApiGateway.Core

open Str Http

variable {σ ρ : Type*} (sys : Subsystems σ ρ) {c : ClientConnection} {l es : List Effect}

/-! ## Bytes -/

/-- The bytes that have been given to the socket. -/
def sentBytes (l : List Effect) : Bytes :=
  l.flatMap fun
    | .sent chunk => chunk
    | _ => []

/-- The responses, in the order in which they were queued. -/
def queuedBytes (l : List Effect) : Bytes :=
  l.flatMap fun
    | .queued wire _ => wire
    | _ => []

@[simp] theorem sentBytes_append (l es : List Effect) :
    sentBytes (l ++ es) = sentBytes l ++ sentBytes es := List.flatMap_append

@[simp] theorem queuedBytes_append (l es : List Effect) :
    queuedBytes (l ++ es) = queuedBytes l ++ queuedBytes es := List.flatMap_append

/-- **No byte is lost, duplicated or reordered.** A connection that was closed may have left out the end
of the responses. -/
def Delivered : Option ClientConnection → List Effect → Prop
  | some c, l => sentBytes l ++ c.unsent = queuedBytes l
  | none, l => sentBytes l <+: queuedBytes l

namespace ClientConnection

theorem hasPendingWrite_eq_false_iff (c : ClientConnection) :
    c.hasPendingWrite = false ↔ c.unsent = [] := by
  rw [hasPendingWrite, decide_eq_false_iff_not, not_lt, unsent, List.drop_eq_nil_iff]

theorem unsent_appendWrite (c : ClientConnection) (wire : Bytes) (closeAfter : Bool) :
    (c.appendWrite wire closeAfter).unsent = c.unsent ++ wire :=
  List.drop_append_of_le_length c.offset_le

end ClientConnection

theorem sentBytes_pieces (chunks : List Bytes) {last : Effect} (h : sentBytes [last] = []) :
    sentBytes (chunks.map .sent ++ [last]) = chunks.flatten := by
  rw [sentBytes_append, h, List.append_nil, sentBytes, List.flatMap_map, List.flatMap_id']

theorem queuedBytes_pieces (chunks : List Bytes) {last : Effect} (h : queuedBytes [last] = []) :
    queuedBytes (chunks.map .sent ++ [last]) = [] := by
  rw [queuedBytes_append, h, List.append_nil, queuedBytes, List.flatMap_map]
  simp

theorem Delivered.close (h : Delivered (some c) l) : Delivered none l := ⟨c.unsent, h⟩

/-- Queueing puts the response at the end. -/
theorem Delivered.queue (h : Delivered (some c) l) (p : HttpParser) {wire : Bytes} (closeAfter : Bool)
    (hsent : sentBytes es = []) (hqueued : queuedBytes es = wire) :
    Delivered (some (({ c with parser := p } : ClientConnection).appendWrite wire closeAfter))
      (l ++ es) := by
  rw [Delivered, sentBytes_append, queuedBytes_append, hsent, hqueued, List.append_nil,
    ClientConnection.unsent_appendWrite, ← List.append_assoc]
  exact congrArg (· ++ wire) h

/-- Flushing takes from the front. -/
theorem Delivered.flush (h : Delivered (some c) l) (sends : List SendResult) :
    Delivered (c.flushIfPossible sends).1 (l ++ (c.flushIfPossible sends).2) := by
  unfold ClientConnection.flushIfPossible
  split
  · obtain ⟨chunks, n, hflatten, hends⟩ := flushLoop_ends sends c
    have hsplit : sentBytes l ++ chunks.flatten ++ c.unsent.drop n = queuedBytes l := by
      rw [hflatten, List.append_assoc, List.take_append_drop]
      exact h
    generalize ClientConnection.flushLoop sends c = r at hends
    cases hends with
    | waits hpending =>
      rw [Delivered, sentBytes_append, queuedBytes_append, sentBytes_pieces _ rfl,
        queuedBytes_pieces _ rfl, List.append_nil, c.unsent_advance]
      exact hsplit
    | closes =>
      rw [Delivered, sentBytes_append, queuedBytes_append, sentBytes_pieces _ rfl,
        queuedBytes_pieces _ rfl, List.append_nil]
      exact ⟨_, hsplit⟩
    | drains hdone =>
      rw [ClientConnection.hasPendingWrite_eq_false_iff, c.unsent_advance] at hdone
      rw [Delivered, sentBytes_append, queuedBytes_append, sentBytes_pieces _ rfl,
        queuedBytes_pieces _ rfl, List.append_nil, ← hsplit, hdone]
      rfl
  · rw [List.append_nil]
    exact h

/-- Serving queues what it logs. -/
theorem Delivered.serve (fuel : ℕ) (h : Delivered (some c) l) (gw : σ) :
    Delivered (some (serveLoop sys fuel c gw).1) (l ++ (serveLoop sys fuel c gw).2) := by
  refine serveLoop_rule sys (P := fun c l => Delivered (some c) l) (R := fun c l => Delivered (some c) l) id
    ?_ ?_ ?_ ?_ fuel h gw
  · intro c l p out h _
    exact h
  · intro c l p out h _
    exact h.queue p true rfl (List.append_nil _)
  · intro c l p req resp id h _
    exact h.queue p true rfl (List.append_nil _)
  · intro c l p req resp id h _
    exact h.queue p false rfl (List.append_nil _)

theorem Delivered.onEvent {conn : Option ClientConnection} (h : Delivered conn l) (e : Event σ) :
    Delivered (onEvent sys conn e).1 (l ++ (onEvent sys conn e).2) := by
  cases conn with
  | none =>
    rw [onEvent_none, List.append_nil]
    exact h
  | some c =>
    refine onEvent_rule sys (Q := fun conn es => Delivered conn (l ++ es)) ?_ ?_ ?_ ?_
    · rw [List.append_nil]
      exact h
    · have hclose : sentBytes l ++ [] <+: queuedBytes l ++ [] := by
        rw [List.append_nil, List.append_nil]
        exact h.close
      rw [Delivered, sentBytes_append, queuedBytes_append]
      exact hclose
    · intro writable now recvs sends sendsLater gw c' he hrecv
      obtain ⟨data, t, rfl⟩ := exists_of_recvLoop hrecv
      exact Delivered.serve sys _ (by exact h) gw
    · intro sends c es hc
      rw [← List.append_assoc]
      exact hc.flush sends

/-! ## Responses -/

/-- A result of the parser that is answered. -/
inductive Parsed where
  | complete (req : HttpRequest)
  | malformed
deriving DecidableEq

/-- The results of the parser while the buffered requests are served: up to an error, or to a request that
does not keep the connection alive. -/
def parseLoop : ℕ → HttpParser → List Parsed
  | 0, _ => []
  | fuel + 1, p =>
    match p.parse {} with
    | (.Incomplete, _, _) => []
    | (.Error, _, _) => [.malformed]
    | (.Complete, q, req) => .complete req :: if req.keepAlive then parseLoop fuel q else []

/-- The results of the parser in an event. -/
def parsed (conn : Option ClientConnection) : Event σ → List Parsed
  | .poll false true _ now recvs _ _ _ =>
    match conn.bind (recvLoop now recvs) with
    | none => []
    | some c => parseLoop (c.parser.buffer.length + 1) c.parser
  | _ => []

/-- The connection's run, with the results of the parser as its log. -/
def parseStep (conn : Option ClientConnection) (e : Event σ) : Option ClientConnection × List Parsed :=
  ((onEvent sys conn e).1, parsed conn e)

/-- One response: what `handleRequest` makes of a request, or status 400. -/
def Answers : Parsed → List Effect → Prop
  | .complete req, es =>
    ∃ requestId, ∃ resp : HttpResponse, ∃ c gw gw',
      handleRequest sys c { req with requestId } gw = (c.queueResponse resp (!req.keepAlive), gw') ∧
      es = [.handled { req with requestId }, .queued (resp.serialize req.keepAlive) (!req.keepAlive)]
  | .malformed, es => es = [.queued (badRequest.serialize false) true]

/-- The log has one answer for each result of the parser, in order, and no other response. -/
def Accounted (l : List Effect) (results : List Parsed) : Prop :=
  ∃ answers, List.Forall₂ (Answers sys) results answers ∧ l.filter (·.isService) = answers.flatten

variable {sys}

theorem Accounted.append {l l' : List Effect} {rs rs' : List Parsed} (h : Accounted sys l rs)
    (h' : Accounted sys l' rs') : Accounted sys (l ++ l') (rs ++ rs') := by
  obtain ⟨as, has, hl⟩ := h
  obtain ⟨as', has', hl'⟩ := h'
  exact ⟨as ++ as', List.rel_append has has', by rw [List.filter_append, hl, hl', List.flatten_append]⟩

theorem accounted_of_idle (h : ∀ e ∈ es, e.isService = false) : Accounted sys es [] :=
  ⟨[], .nil, by simpa using h⟩

theorem accounted_singleton {r : Parsed} (h : Answers sys r es) : Accounted sys es [r] := by
  refine ⟨[es], .cons h .nil, ?_⟩
  cases r with
  | malformed =>
    obtain rfl := h
    rfl
  | complete req =>
    obtain ⟨requestId, resp, c, gw, gw', -, rfl⟩ := h
    rfl

variable (sys)

/-- **Serving answers every result of the parser.** -/
theorem accounted_serveLoop (fuel : ℕ) (c : ClientConnection) (gw : σ) :
    Accounted sys (serveLoop sys fuel c gw).2 (parseLoop fuel c.parser) := by
  induction fuel generalizing c gw with
  | zero => exact accounted_of_idle (by simp [serveLoop])
  | succ fuel ih =>
    rcases serveLoop_succ sys fuel c gw with ⟨p, out, hparse, heq⟩ | ⟨p, out, hparse, heq⟩ |
      ⟨p, req, resp, gw', hparse, hhandle, ⟨hkeep, heq⟩ | ⟨hkeep, heq⟩⟩
    · rw [heq, parseLoop, hparse]
      exact accounted_of_idle (by simp)
    · rw [heq, parseLoop, hparse]
      exact accounted_singleton rfl
    · rw [heq, parseLoop, hparse]
      change Accounted sys _ (.complete req :: if req.keepAlive then _ else [])
      rw [if_neg (by simp [hkeep])]
      exact accounted_singleton ⟨_, resp, _, _, _, hhandle, by simp [hkeep]⟩
    · rw [heq, parseLoop, hparse]
      change Accounted sys _ (.complete req :: if req.keepAlive then _ else [])
      rw [if_pos hkeep]
      have hfirst : Answers sys (.complete req)
          [.handled { req with requestId := (sys.nextRequestId gw).1 },
            .queued (resp.serialize true) false] := by
        exact ⟨_, resp, _, _, _, hhandle, by simp [hkeep]⟩
      exact (accounted_singleton hfirst).append
        (ih (({ c with parser := p } : ClientConnection).appendWrite (resp.serialize true) false) gw')

theorem isService_flushIfPossible (sends : List SendResult) (c : ClientConnection) :
    ∀ e ∈ (c.flushIfPossible sends).2, e.isService = false := by
  unfold ClientConnection.flushIfPossible
  split
  · exact isService_flushLoop sends c
  · simp

theorem accounted_andThen {r : Option ClientConnection × List Effect} {rs : List Parsed}
    {f : ClientConnection → Option ClientConnection × List Effect} (h : Accounted sys r.2 rs)
    (hf : ∀ c, ∀ e ∈ (f c).2, e.isService = false) : Accounted sys (andThen r f).2 rs := by
  rcases r with ⟨_ | c, es⟩
  · exact h
  · have := h.append (accounted_of_idle (hf c))
    rwa [List.append_nil] at this

/-- **An event answers the results of the parser.** -/
theorem accounted_onEvent (conn : Option ClientConnection) (e : Event σ) :
    Accounted sys (onEvent sys conn e).2 (parsed conn e) := by
  have hnothing : Accounted sys [] [] := accounted_of_idle (by simp)
  have hclosed : Accounted sys [.closed] [] := accounted_of_idle (by simp [Effect.isService])
  cases conn with
  | none =>
    cases e with
    | sweep now => exact hnothing
    | poll hangup readable => cases hangup <;> cases readable <;> exact hnothing
  | some c =>
    cases e with
    | sweep now =>
      rw [onEvent, andThen]
      dsimp only
      split
      · exact hclosed
      · exact hnothing
    | poll hangup readable writable now recvs sends sendsLater gw =>
      cases hangup with
      | true => exact hclosed
      | false =>
        -- requests are parsed while reading, and `onWritable` answers nothing
        have hread : Accounted sys
            (if readable then onReadable sys now recvs sends gw c else (some c, [])).2
            (parsed (some c) (.poll false readable writable now recvs sends sendsLater gw)) := by
          cases readable with
          | false => exact hnothing
          | true =>
            rw [if_pos rfl, onReadable, parsed, Option.bind_some]
            cases recvLoop now recvs c with
            | none => exact hclosed
            | some c' =>
              exact accounted_andThen sys (accounted_serveLoop sys _ c' gw)
                (isService_flushIfPossible sends)
        rw [onEvent, andThen]
        refine accounted_andThen sys hread fun c' => ?_
        split
        · exact isService_flushIfPossible sendsLater c'
        · simp

theorem sentBytes_of_flushed {c : ClientConnection} (hpending : ¬ c.hasPendingWrite = true)
    (hclosed : c.flushed.1 = none) :
    c.closeAfterWrite = true ∧ sentBytes c.flushed.2 = c.unsent := by
  rw [(c.hasPendingWrite_eq_false_iff).mp (by simpa using hpending)]
  unfold ClientConnection.flushed at hclosed ⊢
  split
  · exact ⟨‹_›, rfl⟩
  · rename_i hopen
    rw [if_neg hopen] at hclosed
    simp at hclosed

/-- A flush that closes the connection has sent everything, if every `send` was successful. -/
theorem sentBytes_of_flush_closes {c : ClientConnection} {sends : List SendResult}
    (hclosed : (ClientConnection.flushLoop sends c).1 = none)
    (hsends : ∀ result ∈ sends, result ≠ .failed ∧ result ≠ .sent 0) :
    c.closeAfterWrite = true ∧ sentBytes (ClientConnection.flushLoop sends c).2 = c.unsent := by
  induction sends generalizing c with
  | nil =>
    rw [ClientConnection.flushLoop] at hclosed ⊢
    by_cases hpending : c.hasPendingWrite = true
    · simp [hpending] at hclosed
    · rw [if_neg hpending] at hclosed ⊢
      exact sentBytes_of_flushed hpending hclosed
  | cons result rest ih =>
    obtain ⟨⟨hfailed, hzero⟩, hrest⟩ := List.forall_mem_cons.mp hsends
    unfold ClientConnection.flushLoop at hclosed ⊢
    by_cases hpending : c.hasPendingWrite = true
    · rw [if_pos hpending] at hclosed ⊢
      cases result with
      | sent m =>
        have hm : m ≠ 0 := fun h => hzero (h ▸ rfl)
        simp only [hm, if_false] at hclosed ⊢
        obtain ⟨hmark, hsent⟩ := ih hclosed hrest
        refine ⟨hmark, ?_⟩
        rw [c.unsent_advance] at hsent
        calc sentBytes (.sent (c.unsent.take m) :: (ClientConnection.flushLoop rest (c.advance m)).2)
            = c.unsent.take m ++ c.unsent.drop m := by rw [← hsent]; rfl
          _ = c.unsent := List.take_append_drop _ _
      | wouldBlock => simp at hclosed
      | failed => exact absurd rfl hfailed
    · rw [if_neg hpending] at hclosed ⊢
      exact sentBytes_of_flushed hpending hclosed

/-- **Delivery.** In every run from `accept` on: the bytes that were sent, followed by the pending ones,
are the queued responses as long as the connection is open; every result of the parser has exactly one
response, in order; and a flush without a failed `send` closes a connection only when all pending bytes
have been sent. -/
theorem responses_delivered (clientIp : Bytes) (accepted : ℤ) (events : List (Event σ)) :
    let start : Option ClientConnection := some { clientIp, lastActivity := accepted }
    let r := Reactive.run (onEvent sys) start events
    (∀ c, r.1 = some c →
      sentBytes r.2 ++ c.pendingWrite.drop c.writeOffset = queuedBytes r.2 ∧
        c.writeOffset ≤ c.pendingWrite.length) ∧
    (∃ answers,
      List.Forall₂ (Answers sys) (Reactive.run (parseStep sys) start events).2 answers ∧
        r.2.filter (·.isService) = answers.flatten) ∧
    ∀ (c : ClientConnection) sends, (c.flushIfPossible sends).1 = none →
      (∀ result ∈ sends, result ≠ .failed ∧ result ≠ .sent 0) →
      c.closeAfterWrite = true ∧
        sentBytes (c.flushIfPossible sends).2 = c.pendingWrite.drop c.writeOffset := by
  intro start r
  refine ⟨?_, ?_, ?_⟩
  · intro c hc
    have hdelivered : Delivered r.1 r.2 := Reactive.run_invariant (I := Delivered) (s := start) rfl
      (fun conn l e h => h.onEvent sys e) events
    rw [hc] at hdelivered
    exact ⟨hdelivered, c.offset_le⟩
  · exact (Reactive.run_related (R := Accounted sys) (fun _ _ => rfl) (accounted_of_idle (by simp))
      (fun conn l rs e h => h.append (accounted_onEvent sys conn e)) events).2
  · intro c sends hclosed hsends
    unfold ClientConnection.flushIfPossible at hclosed ⊢
    split
    · rename_i hpending
      rw [if_pos hpending] at hclosed
      exact sentBytes_of_flush_closes hclosed hsends
    · rename_i hpending
      simp [hpending] at hclosed

end ApiGateway.Core
