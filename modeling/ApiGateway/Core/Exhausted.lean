import ApiGateway.Core.Forwarding
import Mathlib.Data.List.Induction

/-!
# Exhausted retries

The loop of `forwardWithResilience` on a tape: what each of its attempts meets, a backend or none, a
breaker that admits or refuses, an exchange that fails or brings a response. Other workers move the
balancer and the breakers between two attempts, so every tape is possible, and a call that runs alone is
one of them (`exists_tape`).

A response that is to be retried lives in its iteration only. When every attempt has been made, the answer
is what the last attempt says (`answer_of_usedUp`), and a refused last attempt says that all retries are
exhausted, also behind a response of a backend (`exhausted_answer_iff`).

Reference: `Gateway::forwardWithResilience` in `src/core/Gateway.cpp`.
-/

namespace ApiGateway.Core

open Str Http Routing Resilience Network

/-- The `for` loop over what the attempts meet; `none` is a pick without a backend. -/
def attemptLoop : List (Option Trial) → HttpResponse × List Trial
  | [] => (allRetriesExhausted, [])
  | none :: _ => (noHealthyBackends, [])
  | some (.refused i) :: rest =>
    let r := attemptLoop rest
    (r.1, .refused i :: r.2)
  | some (.exchanged i outcome) :: rest =>
    match answer (rest = []) outcome with
    | some resp => (resp, [.exchanged i outcome])
    | none =>
      let r := attemptLoop rest
      (r.1, .exchanged i outcome :: r.2)

/-- A call that has the balancer, the pool and the breakers to itself. -/
theorem exists_tape (cfg : ForwardConfig) (req : HttpRequest) (order : List (Σ _ : Bytes, Bytes))
    (ss : List Surroundings) (u : Upstream) :
    ∃ tape : List (Option Trial), tape.length = ss.length ∧
      (forwardLoop cfg req order ss u).1 = (attemptLoop tape).1 ∧
      (forwardLoop cfg req order ss u).2.2 = (attemptLoop tape).2 := by
  induction ss generalizing u with
  | nil => exact ⟨[], rfl, rfl, rfl⟩
  | cons s rest ih =>
    rcases forwardLoop_cons cfg req order s rest u with ⟨-, heq⟩ | ⟨i, b, -, hcase⟩
    · refine ⟨none :: rest.map fun _ => none, by simp, ?_, ?_⟩
      · rw [heq, attemptLoop]
      · rw [heq, attemptLoop]
    · rcases hcase with ⟨-, heq⟩ | ⟨-, outcome, u', -, ⟨resp, hanswer, heq⟩ | ⟨hanswer, heq⟩⟩
      · obtain ⟨tape, hlen, hfst, hlog⟩ := ih (u.asked i b s.now)
        refine ⟨some (.refused i) :: tape, by simp [hlen], ?_, ?_⟩
        · rw [heq, attemptLoop, logged, hfst]
        · rw [heq, attemptLoop, logged, hlog]
      · refine ⟨some (.exchanged i outcome) :: rest.map fun _ => none, by simp, ?_, ?_⟩
        · rw [heq, attemptLoop]
          simp [hanswer]
        · rw [heq, attemptLoop]
          simp [hanswer]
      · obtain ⟨tape, hlen, hfst, hlog⟩ := ih u'
        have hnil : decide (tape = []) = decide (rest = []) := by
          simp only [← List.length_eq_zero_iff, hlen]
        refine ⟨some (.exchanged i outcome) :: tape, by simp [hlen], ?_, ?_⟩
        · rw [heq, attemptLoop, hnil, hanswer, logged, hfst]
        · rw [heq, attemptLoop, hnil, hanswer, logged, hlog]

/-! ## The answer when all attempts have been made -/

/-- The call ends because the attempts are used up: each of them has been made, with a backend. -/
def UsedUp (tape : List (Option Trial)) : Prop := (attemptLoop tape).2.length = tape.length

/-- What the last attempt makes of the call. -/
def closing : Option Trial → HttpResponse
  | some (.exchanged _ (some resp)) => resp
  | some (.exchanged _ none) => backendRequestFailed
  | _ => allRetriesExhausted

theorem answer_last (i : ℕ) (outcome : Option HttpResponse) :
    answer true outcome = some (closing (some (.exchanged i outcome))) := by
  cases outcome with
  | none => rfl
  | some resp => simp [answer, closing]

/-- A trial before others does not change what the last one says, nor does a refusal before none. -/
theorem closing_cons {t : Trial} {log : List Trial} (h : log = [] → t.isExchange = false) :
    closing (t :: log).getLast? = closing log.getLast? := by
  cases log with
  | cons t' log => rw [List.getLast?_cons_cons]
  | nil =>
    cases t with
    | refused i => rfl
    | exchanged i outcome => simp [Trial.isExchange] at h

/-- **The last attempt decides.** By induction on the tape: a trial that is not the last one leaves no
trace in the answer. -/
theorem answer_of_usedUp {tape : List (Option Trial)} (h : UsedUp tape) :
    tape = (attemptLoop tape).2.map some ∧
      (attemptLoop tape).1 = closing (attemptLoop tape).2.getLast? := by
  induction tape with
  | nil => exact ⟨rfl, rfl⟩
  | cons t rest ih =>
    unfold UsedUp at h ih
    rcases t with _ | ⟨i⟩ | ⟨i, outcome⟩
    · simp [attemptLoop] at h
    · simp only [attemptLoop, List.length_cons, Nat.add_right_cancel_iff] at h ⊢
      obtain ⟨htape, hanswer⟩ := ih h
      refine ⟨by rw [List.map_cons, ← htape], ?_⟩
      rw [closing_cons (fun _ => rfl), hanswer]
    · cases hanswer : answer (rest = []) outcome with
      | some resp =>
        simp only [attemptLoop, hanswer, List.length_cons, List.length_nil, Nat.zero_add,
          Nat.right_eq_add, List.length_eq_zero_iff] at h ⊢
        subst h
        rw [decide_eq_true rfl, answer_last i] at hanswer
        exact ⟨rfl, (Option.some.inj hanswer).symm⟩
      | none =>
        simp only [attemptLoop, hanswer, List.length_cons, Nat.add_right_cancel_iff] at h ⊢
        obtain ⟨htape, hclosing⟩ := ih h
        have hne : rest ≠ [] := by
          rintro rfl
          rw [decide_eq_true rfl, answer_last i] at hanswer
          simp at hanswer
        refine ⟨by rw [List.map_cons, ← htape], ?_⟩
        rw [closing_cons, hclosing]
        intro hlog
        rw [hlog] at htape
        exact absurd htape hne

/-! ## A backend's answer -/

/-- The outcome of a trial that got past the breaker. -/
def Trial.outcome? : Trial → Option (Option HttpResponse)
  | .refused _ => none
  | .exchanged _ outcome => some outcome

/-- The outcome of the last exchange of a call. -/
def lastOutcome (log : List Trial) : Option (Option HttpResponse) :=
  (log.filterMap Trial.outcome?).getLast?

/-- **When exhausted retries return the backend's own answer.** The attempts are used up, and the last
exchange has brought a response. That response is returned if and only if the last attempt is not refused
by a breaker, a response apart that equals the one the gateway makes up. -/
theorem exhausted_answer_iff (tape : List (Option Trial)) (resp : HttpResponse) (hused : UsedUp tape)
    (hlast : lastOutcome (attemptLoop tape).2 = some (some resp)) :
    (attemptLoop tape).1 = resp ↔
      (∀ i, tape.getLast? ≠ some (some (.refused i))) ∨ resp = allRetriesExhausted := by
  obtain ⟨htape, hanswer⟩ := answer_of_usedUp hused
  have hend : tape.getLast? = (attemptLoop tape).2.getLast?.map some := by
    conv_lhs => rw [htape, List.getLast?_map]
  rw [hanswer, hend]
  rcases List.eq_nil_or_concat (attemptLoop tape).2 with hlog | ⟨before, t, hlog⟩
  · rw [hlog] at hlast
    simp [lastOutcome] at hlast
  · rw [hlog, List.concat_eq_append] at hlast ⊢
    rw [List.getLast?_concat]
    cases t with
    | refused i =>
      have hrefused : ¬ ∀ j, Option.map some (some (Trial.refused i)) ≠ some (some (.refused j)) :=
        fun h => h i rfl
      simp only [hrefused, false_or, closing]
      exact eq_comm
    | exchanged i outcome =>
      rw [lastOutcome, List.filterMap_append] at hlast
      obtain rfl : outcome = some resp := by simpa [Trial.outcome?] using hlast
      simp [closing]

/-- A 503 of a backend, and then an open breaker. -/
def refusedLast : List (Option Trial) :=
  [some (.exchanged 0 (some { statusCode := 503 })), some (.refused 1)]

theorem exhausted_answer_refusedLast :
    (attemptLoop refusedLast).1 = { statusCode := 503 } ↔
      (∀ i, refusedLast.getLast? ≠ some (some (.refused i))) ∨
        ({ statusCode := 503 } : HttpResponse) = allRetriesExhausted :=
  exhausted_answer_iff refusedLast { statusCode := 503 } rfl rfl

/-- Every attempt that gets past a breaker is answered with a 503. -/
def busyBackend : Surroundings where
  now := 100
  dialed := 7
  sends := [.sent 4096]
  reads := [bytes "HTTP/1.1 503 Busy\r\nContent-Length: 0\r\n\r\n"]

/-- The first and the last of three attempts meet the open breaker, and the answer of the backend in
between is lost. -/
theorem exhausted_answer_lost :
    ¬ ∀ (cfg : ForwardConfig) (req : HttpRequest) (order : List (Σ _ : Bytes, Bytes))
        (env : ℕ → Surroundings) (u : Upstream) (resp : HttpResponse),
      (forwardWithResilience cfg req order env u).2.2.length = cfg.attempts →
      lastOutcome (forwardWithResilience cfg req order env u).2.2 = some (some resp) →
      500 ≤ resp.statusCode → (forwardWithResilience cfg req order env u).1 = resp := by
  intro hown
  have hrun : (forwardWithResilience ⟨2, 1024⟩ {} [] (fun _ => busyBackend)
        (openAndClosed .RoundRobin)).1 = allRetriesExhausted ∧
      (forwardWithResilience ⟨2, 1024⟩ {} [] (fun _ => busyBackend) (openAndClosed .RoundRobin)).2.2
        = [.refused 0, .exchanged 1 (some { statusCode := 503, statusText := bytes "Busy" }),
          .refused 0] := by decide +kernel
  have hresp := hown ⟨2, 1024⟩ {} [] (fun _ => busyBackend) (openAndClosed .RoundRobin)
    { statusCode := 503, statusText := bytes "Busy" } (by rw [hrun.2]; rfl) (by rw [hrun.2]; rfl)
    (by decide)
  rw [hrun.1] at hresp
  exact absurd hresp (by decide)

end ApiGateway.Core
