import ApiGateway.Core.Worker

/-!
# Connections that are to be closed

A response queued with `closeAfter` marks the connection: it is meant to be the last one. It is, as long
as nothing is read from the connection that makes a request or a parse error (`Quiet`). Otherwise it is
not: `onReadable` does not look at the mark before it parses, and `queueResponse` overwrites it.
`closing_final_iff` says that this is the exact condition, for every run.
-/

namespace ApiGateway.Core

open Str Http

/-! ## Logs -/

/-- A request is handled or a response is queued. -/
def Effect.isService : Effect → Bool
  | .handled _ => true
  | .queued _ _ => true
  | _ => false

/-- A response is queued that is to end the connection. -/
def Effect.marks : Effect → Bool
  | .queued _ closeAfter => closeAfter
  | _ => false

theorem Effect.isService_of_marks {e : Effect} (h : e.marks = true) : e.isService = true := by
  cases e with
  | queued wire closeAfter => rfl
  | _ => simp [marks] at h

/-- The connection is to be closed. -/
def Marked (l : List Effect) : Prop := ∃ e ∈ l, e.marks = true

instance (l : List Effect) : Decidable (Marked l) :=
  inferInstanceAs (Decidable (∃ e ∈ l, e.marks = true))

/-- Nothing is handled or queued after a response that is to end the connection. -/
def Final (l : List Effect) : Prop := l.Pairwise fun e e' => e.marks = true → e'.isService = false

instance (l : List Effect) : Decidable (Final l) := inferInstanceAs (Decidable (l.Pairwise _))

theorem marked_append {l es : List Effect} : Marked (l ++ es) ↔ Marked l ∨ Marked es := by
  simp only [Marked, List.mem_append, or_and_right, exists_or]

theorem final_append {l es : List Effect} :
    Final (l ++ es) ↔ Final l ∧ Final es ∧ (Marked l → ∀ e ∈ es, e.isService = false) := by
  rw [Final, List.pairwise_append]
  constructor
  · rintro ⟨hl, hes, hcross⟩
    exact ⟨hl, hes, fun ⟨e, he, hmarks⟩ e' he' => hcross e he e' he' hmarks⟩
  · rintro ⟨hl, hes, hcross⟩
    exact ⟨hl, hes, fun e he e' he' hmarks => hcross ⟨e, he, hmarks⟩ e' he'⟩

theorem not_marked_of_idle {es : List Effect} (h : ∀ e ∈ es, e.isService = false) : ¬ Marked es := by
  rintro ⟨e, he, hmarks⟩
  have := Effect.isService_of_marks hmarks
  simp [h e he] at this

/-- Flushing handles and queues nothing. -/
theorem isService_flushLoop (sends : List SendResult) (c : ClientConnection) :
    ∀ e ∈ (ClientConnection.flushLoop sends c).2, e.isService = false := by
  obtain ⟨chunks, n, -, hends⟩ := flushLoop_ends sends c
  have hidle : ∀ last : Effect, last.isService = false →
      ∀ e ∈ chunks.map Effect.sent ++ [last], e.isService = false := by
    intro last hlast e he
    rcases List.mem_append.mp he with he | he
    · obtain ⟨chunk, -, rfl⟩ := List.mem_map.mp he
      rfl
    · exact List.mem_singleton.mp he ▸ hlast
  generalize ClientConnection.flushLoop sends c = r at hends
  cases hends with
  | waits => exact hidle _ rfl
  | closes => exact hidle _ rfl
  | drains => exact hidle _ rfl

theorem serialize_ne_nil (resp : HttpResponse) (keepAlive : Bool) : resp.serialize keepAlive ≠ [] := by
  simp [HttpResponse.serialize, HttpResponse.serializeHead, crlf]

/-! ## The property and the rule -/

/-- **A connection that is to be closed is final**: nothing more is handled or queued, and as long as it
is open the mark stays and there are bytes to flush. -/
structure ClosingFinal (conn : Option ClientConnection) (l : List Effect) : Prop where
  silent : Final l
  stays : ∀ c, conn = some c → Marked l → c.closeAfterWrite = true
  pending : ∀ c, conn = some c → Marked l → c.hasPendingWrite = true

/-- An event does not disturb a connection that is to be closed: it has nothing to read, or closes the
connection while reading, or the bytes make neither a request nor an error. -/
def Quiet {σ : Type*} (conn : Option ClientConnection) (l : List Effect) : Event σ → Prop
  | .poll hangup readable _ now recvs _ _ _ =>
    Marked l → hangup = false → readable = true →
      ∀ c c', conn = some c → recvLoop now recvs c = some c' →
        (c'.parser.parse {}).1 = .Incomplete
  | .sweep _ => True

/-! ## Keeping the rule -/

/-- The invariant: the mark of an open connection says whether it is to be closed, and then there are
bytes to flush. -/
structure Settled (conn : Option ClientConnection) (l : List Effect) : Prop where
  final : Final l
  mark : ∀ c, conn = some c → (c.closeAfterWrite = true ↔ Marked l)
  pending : ∀ c, conn = some c → c.closeAfterWrite = true → c.hasPendingWrite = true

namespace Settled

variable {l es : List Effect} {c : ClientConnection}

theorem closingFinal {conn : Option ClientConnection} (h : Settled conn l) : ClosingFinal conn l :=
  ⟨h.final, fun c hc hm => (h.mark c hc).mpr hm, fun c hc hm => h.pending c hc ((h.mark c hc).mpr hm)⟩

/-- Effects other than handling and queueing change nothing for the log. -/
theorem append_idle {conn : Option ClientConnection} (h : Settled conn l)
    (hes : ∀ e ∈ es, e.isService = false) : Settled conn (l ++ es) := by
  have hmarked : Marked (l ++ es) ↔ Marked l := by
    rw [marked_append]
    exact or_iff_left (not_marked_of_idle hes)
  have hfinal : Final es := List.pairwise_of_forall_mem_list fun _ _ e' he' _ => hes e' he'
  exact ⟨final_append.mpr ⟨h.final, hfinal, fun _ => hes⟩,
    fun c hc => (h.mark c hc).trans hmarked.symm, h.pending⟩

/-- Closing settles everything. -/
theorem close (h : Settled (some c) l) : Settled none l := ⟨h.final, by simp, by simp⟩

/-- Only the mark and the pending bytes matter. -/
theorem congr (h : Settled (some c) l) (c' : ClientConnection)
    (hmark : c'.closeAfterWrite = c.closeAfterWrite)
    (hpending : c.closeAfterWrite = true → c'.hasPendingWrite = true) : Settled (some c') l := by
  refine ⟨h.final, ?_, ?_⟩
  · rintro _ ⟨⟩
    rw [hmark]
    exact h.mark c rfl
  · rintro _ ⟨⟩ hclose
    exact hpending (hmark ▸ hclose)

/-- Flushing. -/
theorem flush (h : Settled (some c) l) (sends : List SendResult) :
    Settled (c.flushIfPossible sends).1 (l ++ (c.flushIfPossible sends).2) := by
  unfold ClientConnection.flushIfPossible
  split
  · obtain ⟨chunks, n, -, hends⟩ := flushLoop_ends sends c
    have hidle := isService_flushLoop sends c
    generalize ClientConnection.flushLoop sends c = r at hends hidle
    cases hends with
    | waits hpending => exact (h.congr (c.advance n) rfl fun _ => hpending).append_idle hidle
    | closes => exact h.close.append_idle hidle
    | drains _ hopen =>
      refine (h.congr c.drained rfl fun hclose => ?_).append_idle hidle
      simp [hopen] at hclose
  · rw [List.append_nil]
    exact h

/-- A response that closes the connection. -/
theorem queue_closing (h : Settled (some c) l) (hl : ¬ Marked l) (p : HttpParser) {wire : Bytes}
    (hwire : wire ≠ []) (es : List Effect) (hes : ∀ e ∈ es, e.marks = false) :
    Settled (some (({ c with parser := p } : ClientConnection).appendWrite wire true))
      (l ++ (es ++ [.queued wire true])) := by
  have hnot : ¬ Marked es := fun ⟨e, he, hmarks⟩ => by simp [hes e he] at hmarks
  have hfinal : Final (es ++ [.queued wire true]) := by
    refine final_append.mpr ⟨?_, List.pairwise_singleton _ _, fun hm => absurd hm hnot⟩
    exact List.pairwise_of_forall_mem_list fun e he _ _ hmarks => by simp [hes e he] at hmarks
  refine ⟨final_append.mpr ⟨h.final, hfinal, fun hm => absurd hm hl⟩, ?_, ?_⟩
  · rintro _ ⟨⟩
    exact iff_of_true rfl ⟨_, List.mem_append_right _ (List.mem_append_right _ (List.mem_singleton_self _)), rfl⟩
  · rintro _ ⟨⟩ -
    have hoffset := c.offset_le
    have hpos := List.length_pos_iff.mpr hwire
    simp only [ClientConnection.hasPendingWrite, ClientConnection.appendWrite, List.length_append,
      decide_eq_true_eq]
    omega

/-- A response after which the connection stays open. -/
theorem queue_open (h : Settled (some c) l) (hl : ¬ Marked l) (p : HttpParser) (wire : Bytes)
    (req : HttpRequest) :
    Settled (some (({ c with parser := p } : ClientConnection).appendWrite wire false))
        (l ++ [.handled req, .queued wire false]) ∧
      ¬ Marked (l ++ [.handled req, .queued wire false]) := by
  have hl' : ¬ Marked (l ++ [.handled req, .queued wire false]) := by
    rw [marked_append, not_or]
    exact ⟨hl, by simp [Marked, Effect.marks]⟩
  refine ⟨⟨?_, ?_, ?_⟩, hl'⟩
  · refine final_append.mpr ⟨h.final, ?_, fun hm => absurd hm hl⟩
    simp [Final, Effect.marks]
  · rintro _ ⟨⟩
    exact iff_of_false (by simp [ClientConnection.appendWrite]) hl'
  · rintro _ ⟨⟩ hclose
    simp [ClientConnection.appendWrite] at hclose

/-- Serving the buffered requests, up to the first that closes the connection. -/
theorem serve {σ ρ : Type*} (sys : Subsystems σ ρ) (fuel : ℕ) (h : Settled (some c) l)
    (hl : ¬ Marked l) (gw : σ) :
    Settled (some (serveLoop sys fuel c gw).1) (l ++ (serveLoop sys fuel c gw).2) := by
  refine serveLoop_rule sys (P := fun c l => Settled (some c) l ∧ ¬ Marked l)
    (R := fun c l => Settled (some c) l) And.left ?_ ?_ ?_ ?_ fuel ⟨h, hl⟩ gw
  · rintro c l p out ⟨h, -⟩ -
    exact h.congr _ rfl (h.pending c rfl)
  · rintro c l p out ⟨h, hl⟩ -
    exact h.queue_closing hl p (serialize_ne_nil badRequest _) [] (by simp)
  · rintro c l p req resp id ⟨h, hl⟩ -
    exact h.queue_closing hl p (serialize_ne_nil resp _) [.handled _] (by simp [Effect.marks])
  · rintro c l p req resp id ⟨h, hl⟩ -
    exact h.queue_open hl p (resp.serialize true) { req with requestId := id }

end Settled

variable {σ ρ : Type*} (sys : Subsystems σ ρ)

/-- A quiet event keeps the invariant. -/
theorem Settled.onEvent {conn : Option ClientConnection} {l : List Effect} (h : Settled conn l)
    {e : Event σ} (hquiet : Quiet conn l e) :
    Settled (onEvent sys conn e).1 (l ++ (onEvent sys conn e).2) := by
  cases conn with
  | none =>
    rw [onEvent_none, List.append_nil]
    exact h
  | some c =>
    refine onEvent_rule sys (Q := fun conn es => Settled conn (l ++ es)) ?_ ?_ ?_ ?_
    · rw [List.append_nil]
      exact h
    · exact h.close.append_idle (by simp [Effect.isService])
    · intro writable now recvs sends sendsLater gw c' he hrecv
      subst he
      have hc' : Settled (some c') l := by
        obtain ⟨data, t, rfl⟩ := exists_of_recvLoop hrecv
        exact h.congr _ rfl (h.pending c rfl)
      by_cases hl : Marked l
      · -- nothing is parsed from a connection that is to be closed
        have hincomplete := hquiet hl rfl rfl c c' rfl hrecv
        rcases serveLoop_succ sys c'.parser.buffer.length c' gw with ⟨p, out, -, heq⟩ |
          ⟨p, out, hparse, -⟩ | ⟨p, req, resp, gw', hparse, -⟩
        · rw [heq, List.append_nil]
          exact hc'.congr _ rfl (hc'.pending c' rfl)
        · simp [hparse] at hincomplete
        · simp [hparse] at hincomplete
      · exact hc'.serve sys _ hl gw
    · intro sends c es hc
      rw [← List.append_assoc]
      exact hc.flush sends

/-- Serving a request or an error is logged. -/
theorem exists_isService_of_serve (fuel : ℕ) {c : ClientConnection} (gw : σ)
    (h : (c.parser.parse {}).1 ≠ .Incomplete) :
    ∃ e ∈ (serveLoop sys (fuel + 1) c gw).2, e.isService = true := by
  rcases serveLoop_succ sys fuel c gw with ⟨p, out, hparse, -⟩ | ⟨p, out, -, heq⟩ |
    ⟨p, req, resp, gw', -, -, ⟨-, heq⟩ | ⟨-, heq⟩⟩
  · simp [hparse] at h
  · rw [heq]
    exact ⟨_, List.mem_cons_self, rfl⟩
  · rw [heq]
    exact ⟨_, List.mem_cons_self, rfl⟩
  · rw [heq]
    exact ⟨_, List.mem_cons_self, rfl⟩

theorem mem_andThen {r : Option ClientConnection × List Effect}
    {f : ClientConnection → Option ClientConnection × List Effect} {e : Effect} (h : e ∈ r.2) :
    e ∈ (andThen r f).2 := by
  rcases r with ⟨_ | c, es⟩
  · exact h
  · exact List.mem_append_left _ h

/-- An event that is not quiet breaks the property. -/
theorem not_closingFinal_of_not_quiet {conn : Option ClientConnection} {l : List Effect}
    {e : Event σ} (h : ¬ Quiet conn l e) :
    ¬ ClosingFinal (onEvent sys conn e).1 (l ++ (onEvent sys conn e).2) := by
  cases e with
  | sweep now => exact absurd trivial h
  | poll hangup readable writable now recvs sends sendsLater gw =>
    simp only [Quiet, not_forall] at h
    obtain ⟨hl, rfl, rfl, c, c', rfl, hrecv, hparse⟩ := h
    obtain ⟨e, he, hservice⟩ := exists_isService_of_serve sys c'.parser.buffer.length gw hparse
    intro hfinal
    have hsilent := (final_append.mp hfinal.silent).2.2 hl e (by
      refine mem_andThen (r := onReadable sys now recvs sends gw c) ?_
      rw [onReadable, hrecv]
      exact mem_andThen he)
    simp [hsilent] at hservice

/-- **When a connection that is to be closed is final.** In a run from `accept` on, the property holds in
every state if and only if every event on a connection that is to be closed is quiet. -/
theorem closing_final_iff (clientIp : Bytes) (accepted : ℤ) (events : List (Event σ)) :
    (∀ es, es <+: events →
      ClosingFinal (Reactive.run (onEvent sys) (some { clientIp, lastActivity := accepted }) es).1
        (Reactive.run (onEvent sys) (some { clientIp, lastActivity := accepted }) es).2) ↔
    ∀ es e, es ++ [e] <+: events →
      Quiet (Reactive.run (onEvent sys) (some { clientIp, lastActivity := accepted }) es).1
        (Reactive.run (onEvent sys) (some { clientIp, lastActivity := accepted }) es).2 e := by
  refine Reactive.safe_iff (I := Settled) ?_ ?_ ?_ ?_ events
  · refine ⟨List.Pairwise.nil, ?_, ?_⟩
    · rintro _ ⟨⟩
      simp [Marked]
    · rintro _ ⟨⟩ hclose
      simp at hclose
  · exact fun conn l e h hquiet => h.onEvent sys hquiet
  · exact fun conn l h => h.closingFinal
  · exact fun conn l e _ hbroken => not_closingFinal_of_not_quiet sys hbroken

/-- A gateway without routes. -/
def noRoutes : Subsystems Unit Unit where
  nextRequestId _ := (bytes "req-0-0", ())
  toPrometheusText _ := []
  allow _ _ := (true, ())
  matchRoute _ := none
  cacheable _ := false
  cacheGet _ _ := (none, ())
  cachePut _ _ _ := ()
  forwardWithResilience _ _ _ := ({}, ())

/-- A request of a client that does not keep its connections, while `send` would block. -/
def closingRequest : Event Unit :=
  .poll false true false 0 [.data (bytes "GET /gateway/health HTTP/1.0\r\n\r\n")] [.wouldBlock] [] ()

/-- One more request, on the same connection. -/
def lateRequest : Event Unit :=
  .poll false true false 0 [.data (bytes "GET /gateway/health HTTP/1.1\r\n\r\n")] [.wouldBlock] [] ()

/-- The socket takes everything. -/
def socketReady : Event Unit := .poll false false true 0 [] [] [.sent 1000] ()

/-- Without another request the connection is final: it is closed by the flush. -/
theorem closing_final_socketReady :
    ∀ es, es <+: [closingRequest, socketReady] →
      ClosingFinal (Reactive.run (onEvent noRoutes) (some { clientIp := [], lastActivity := 0 }) es).1
        (Reactive.run (onEvent noRoutes) (some { clientIp := [], lastActivity := 0 }) es).2 := by
  refine (closing_final_iff noRoutes [] 0 _).mpr fun es e hprefix => ?_
  match es, hprefix with
  | [], hprefix =>
    obtain rfl : e = closingRequest := (List.cons_prefix_cons.mp hprefix).1
    rintro ⟨_, he, -⟩
    simp [Reactive.run] at he
  | [e₁], hprefix =>
    have h := (List.cons_prefix_cons.mp hprefix).2
    obtain rfl : e = socketReady := (List.cons_prefix_cons.mp h).1
    exact fun _ _ hreadable => absurd hreadable Bool.false_ne_true
  | e₁ :: e₂ :: es, hprefix =>
    have := hprefix.length_le
    simp at this

/-- The late request is handled, and takes the mark away. -/
theorem late_request_takes_mark_away :
    let before := Reactive.run (onEvent noRoutes) (some { clientIp := [], lastActivity := 0 })
      [closingRequest]
    let after := Reactive.run (onEvent noRoutes) (some { clientIp := [], lastActivity := 0 })
      [closingRequest, lateRequest]
    before.1.map (·.closeAfterWrite) = some true ∧ Marked before.2 ∧
      after.1.map (·.closeAfterWrite) = some false ∧ ¬ Final after.2 := by
  decide +kernel

end ApiGateway.Core
