import ApiGateway.Cache.LRUCache
import ApiGateway.Common.Interleaving
import ApiGateway.Core.Worker
import ApiGateway.Http.Emitted

/-!
# Answers from the cache

Calls of `handleRequest` by any number of workers, which share the response cache. A call looks into the
cache, and possibly stores a response later on; each of the two is atomic, and other calls come in between.
Alone, a call is `handleRequest` (`run_alone`). Every entry of the cache was stored by a call that has been
answered with it (`Genuine`), so that a hit repeats the answer to an earlier request. That this was a
request for the same target needs that the parser gives no two targets one key (`cacheKey_inj`).

Reference: `Worker::handleRequest` in `src/core/Gateway.cpp`.
-/

namespace ApiGateway.Core

open Str Http Cache Interleaving

/-! ## Calls in steps -/

/-- A call of `handleRequest`, with what the clocks and the other subsystems will give it. -/
structure HandlerCall where
  req : HttpRequest
  /-- The text of `toPrometheusText`. -/
  metrics : Bytes := []
  /-- The rate limiter's decision. -/
  allowed : Bool := true
  /-- The answer of `forwardWithResilience`. -/
  answer : HttpResponse := {}
  getTime : ℤ
  putTime : ℤ
deriving DecidableEq

/-- Where a response has come from. -/
inductive Source where
  /-- The gateway's own response. -/
  | own
  | hit
  /-- Forwarded, and stored in the cache. -/
  | stored
  | forwarded
deriving DecidableEq, Repr

/-- How far a call is. -/
inductive Handling (ρ : Type*) where
  | arrived (call : HandlerCall)
  | forwarding (call : HandlerCall) (route : ρ) (cacheableRequest : Bool)
  | answered (call : HandlerCall) (resp : HttpResponse) (source : Source)
deriving DecidableEq

/-- The response cache; there is none after undefined behaviour. -/
abbrev ResponseCache := Option (LRUCache CachedResponse)

namespace ResponseCache

def get (key : Bytes) (now : ℤ) (cache : ResponseCache) : Option CachedResponse × ResponseCache :=
  match Option.bind cache fun c => c.get key now with
  | none => (none, none)
  | some (found, c) => (found, some c)

def put (key : Bytes) (value : CachedResponse) (now : ℤ) (cache : ResponseCache) : ResponseCache :=
  Option.bind cache fun c => c.put key value now

end ResponseCache

/-- The response to a hit. -/
def replay (cached : CachedResponse) (requestId : Bytes) : HttpResponse :=
  let resp := HttpResponse.make cached.statusCode cached.statusText cached.body
  let resp := { resp with headers := cached.headers }
  (resp.setHeader (bytes "X-Cache") (bytes "HIT")).setHeader (bytes "X-Request-Id") requestId

section Steps

variable {ρ : Type*} (matchRoute : Bytes → Option ρ) (cacheable : ρ → Bool)

/-- The next step of a call: up to and including the lookup, or from the backend's answer on. -/
def handleStep (cache : ResponseCache) : Handling ρ → ResponseCache × Handling ρ
  | .arrived call =>
    let req := call.req
    if req.path = bytes "/metrics" then
      let resp := HttpResponse.make 200 (bytes "OK") call.metrics
      let resp := resp.setHeader (bytes "Content-Type") (bytes "text/plain; version=0.0.4")
      (cache, .answered call resp .own)
    else if req.path = bytes "/gateway/health" then
      (cache, .answered call (.make 200 (bytes "OK") (bytes "\x7b\"status\":\"ok\"\x7d")) .own)
    else if !call.allowed then
      (cache, .answered call (.make 429 (bytes "Too Many Requests") (bytes "rate limit exceeded")) .own)
    else
      match matchRoute req.path with
      | none => (cache, .answered call (.make 404 (bytes "Not Found") (bytes "no matching route")) .own)
      | some route =>
        let cacheableRequest :=
          cacheable route && (req.method = bytes "GET" || req.method = bytes "HEAD")
        if cacheableRequest then
          match cache.get req.cacheKey call.getTime with
          | (some cached, cache) => (cache, .answered call (replay cached req.requestId) .hit)
          | (none, cache) => (cache, .forwarding call route cacheableRequest)
        else (cache, .forwarding call route cacheableRequest)
  | .forwarding call _ cacheableRequest =>
    let req := call.req
    let resp := call.answer.setHeader (bytes "X-Request-Id") req.requestId
    if cacheableRequest && resp.statusCode == 200 then
      let resp := resp.setHeader (bytes "X-Cache") (bytes "MISS")
      (cache.put req.cacheKey ⟨resp.statusCode, resp.statusText, resp.headers, resp.body⟩ call.putTime,
        .answered call resp .stored)
    else (cache, .answered call resp .forwarded)
  | .answered call resp source => (cache, .answered call resp source)

/-- Any number of calls, none of which has begun, and a new cache. -/
def atArrival (capacity : ℕ) (ttl : ℤ) (calls : ℕ → HandlerCall) : Config ResponseCache (Handling ρ) :=
  ⟨some { capacity, ttl }, fun t => .arrived (calls t)⟩

/-- The subsystems as a call finds them. -/
def surroundings (call : HandlerCall) : Subsystems ResponseCache ρ where
  nextRequestId cache := (call.req.requestId, cache)
  toPrometheusText _ := call.metrics
  allow _ cache := (call.allowed, cache)
  matchRoute := matchRoute
  cacheable := cacheable
  cacheGet key cache := cache.get key call.getTime
  cachePut key value cache := cache.put key value call.putTime
  forwardWithResilience _ _ cache := (call.answer, cache)

/-- The second step of a call is the end of `handleRequest`. -/
theorem handleStep_forwarding (conn : ClientConnection) (call : HandlerCall) (route : ρ) (b : Bool)
    (cache : ResponseCache) :
    ∃ resp source cache',
      handleStep matchRoute cacheable cache (.forwarding call route b)
        = (cache', .answered call resp source) ∧
      forwardRequest (surroundings matchRoute cacheable call) conn call.req route b cache
        = (conn.queueResponse resp (!call.req.keepAlive), cache') := by
  simp only [handleStep, forwardRequest, surroundings]
  by_cases hstored :
      (b && (call.answer.setHeader (bytes "X-Request-Id") call.req.requestId).statusCode == 200) = true
  · simp only [hstored, if_true]
    exact ⟨_, _, _, rfl, rfl⟩
  · simp only [hstored]
    exact ⟨_, _, _, rfl, rfl⟩

/-- **Alone, a call is `handleRequest`.** -/
theorem handleRequest_eq_steps (conn : ClientConnection) (call : HandlerCall) (cache : ResponseCache) :
    ∃ resp source cache',
      (let r := handleStep matchRoute cacheable cache (.arrived call)
       handleStep matchRoute cacheable r.1 r.2) = (cache', .answered call resp source) ∧
      handleRequest (surroundings matchRoute cacheable call) conn call.req cache
        = (conn.queueResponse resp (!call.req.keepAlive), cache') := by
  rw [handleStep, handleRequest]
  by_cases hmetrics : call.req.path = bytes "/metrics"
  · simp only [if_pos hmetrics]
    exact ⟨_, _, _, rfl, rfl⟩
  by_cases hhealth : call.req.path = bytes "/gateway/health"
  · simp only [if_neg hmetrics, if_pos hhealth]
    exact ⟨_, _, _, rfl, rfl⟩
  simp only [if_neg hmetrics, if_neg hhealth, surroundings]
  by_cases hallowed : call.allowed = true
  · simp only [hallowed, Bool.not_true, Bool.false_eq_true, if_false]
    cases matchRoute call.req.path with
    | none => exact ⟨_, _, _, rfl, rfl⟩
    | some route =>
      by_cases hcacheable :
          (cacheable route && (call.req.method = bytes "GET" || call.req.method = bytes "HEAD")) = true
      · simp only [hcacheable, if_true]
        rcases cache.get call.req.cacheKey call.getTime with ⟨_ | cached, cache⟩
        · exact handleStep_forwarding matchRoute cacheable conn call route true cache
        · exact ⟨_, _, _, rfl, rfl⟩
      · simp only [hcacheable]
        exact handleStep_forwarding matchRoute cacheable conn call route false cache
  · simp only [hallowed, Bool.not_false, if_true]
    exact ⟨_, _, _, rfl, rfl⟩

/-! ## What a step can do -/

/-- The request may be answered from the cache. -/
structure Eligible (call : HandlerCall) (route : ρ) : Prop where
  matches_route : matchRoute call.req.path = some route
  cacheable : cacheable route = true
  method : call.req.method = bytes "GET" ∨ call.req.method = bytes "HEAD"

/-- The response that is stored, and queued. -/
def HandlerCall.storedResponse (call : HandlerCall) : HttpResponse :=
  (call.answer.setHeader (bytes "X-Request-Id") call.req.requestId).setHeader (bytes "X-Cache")
    (bytes "MISS")

/-- What is stored, under which key and when. -/
def HandlerCall.entry (call : HandlerCall) : Recency.Entry Bytes CachedResponse where
  key := call.req.cacheKey
  value := ⟨call.storedResponse.statusCode, call.storedResponse.statusText, call.storedResponse.headers,
    call.storedResponse.body⟩
  insertedAt := call.putTime

/-- After the lookup: a hit is answered, a miss is forwarded. -/
def afterLookup (call : HandlerCall) (route : ρ) : Option CachedResponse → Handling ρ
  | none => .forwarding call route true
  | some cached => .answered call (replay cached call.req.requestId) .hit

/-- The first step: the gateway's own answer, a request that goes past the cache, or a lookup. Which one
does not depend on the cache. -/
theorem handleStep_arrived_cases (call : HandlerCall) :
    (∃ resp, ∀ cache,
      handleStep matchRoute cacheable cache (.arrived call) = (cache, .answered call resp .own)) ∨
    (call.req.path ≠ bytes "/metrics" ∧ ∃ route, ∀ cache,
      handleStep matchRoute cacheable cache (.arrived call) = (cache, .forwarding call route false)) ∨
    (call.req.path ≠ bytes "/metrics" ∧ ∃ route, Eligible matchRoute cacheable call route ∧ ∀ cache,
      handleStep matchRoute cacheable cache (.arrived call)
        = ((cache.get call.req.cacheKey call.getTime).2,
          afterLookup call route (cache.get call.req.cacheKey call.getTime).1)) := by
  simp only [handleStep]
  split
  · exact .inl ⟨_, fun _ => rfl⟩
  rename_i hmetrics
  split
  · exact .inl ⟨_, fun _ => rfl⟩
  split
  · exact .inl ⟨_, fun _ => rfl⟩
  cases hroute : matchRoute call.req.path with
  | none => exact .inl ⟨_, fun _ => rfl⟩
  | some route =>
    dsimp only
    by_cases hcacheable :
        (cacheable route && (call.req.method = bytes "GET" || call.req.method = bytes "HEAD")) = true
    · have heligible : Eligible matchRoute cacheable call route := by
        rw [Bool.and_eq_true, Bool.or_eq_true, decide_eq_true_iff, decide_eq_true_iff] at hcacheable
        exact ⟨hroute, hcacheable.1, hcacheable.2⟩
      refine .inr (.inr ⟨hmetrics, route, heligible, fun cache => ?_⟩)
      simp only [hcacheable, if_true]
      rcases cache.get call.req.cacheKey call.getTime with ⟨_ | cached, cache'⟩
      · rfl
      · rfl
    · simp only [hcacheable]
      exact .inr (.inl ⟨hmetrics, route, fun _ => rfl⟩)

/-- The first step: the gateway's own answer, a request that goes past the cache, a miss or a hit. -/
theorem handleStep_arrived (call : HandlerCall) (cache : ResponseCache) :
    (∃ resp, handleStep matchRoute cacheable cache (.arrived call) = (cache, .answered call resp .own)) ∨
    (∃ route, handleStep matchRoute cacheable cache (.arrived call)
      = (cache, .forwarding call route false)) ∨
    ∃ route, Eligible matchRoute cacheable call route ∧
      ((∃ cache', cache.get call.req.cacheKey call.getTime = (none, cache') ∧
          handleStep matchRoute cacheable cache (.arrived call)
            = (cache', .forwarding call route true)) ∨
        ∃ cached cache', cache.get call.req.cacheKey call.getTime = (some cached, cache') ∧
          handleStep matchRoute cacheable cache (.arrived call)
            = (cache', .answered call (replay cached call.req.requestId) .hit)) := by
  rcases handleStep_arrived_cases matchRoute cacheable call with ⟨resp, heq⟩ | ⟨-, route, heq⟩ |
    ⟨-, route, heligible, heq⟩
  · exact .inl ⟨resp, heq cache⟩
  · exact .inr (.inl ⟨route, heq cache⟩)
  · rw [heq]
    rcases cache.get call.req.cacheKey call.getTime with ⟨_ | cached, cache'⟩
    · exact .inr (.inr ⟨route, heligible, .inl ⟨cache', rfl, rfl⟩⟩)
    · exact .inr (.inr ⟨route, heligible, .inr ⟨cached, cache', rfl, rfl⟩⟩)

/-- The second step: the response is stored, or only queued. -/
theorem handleStep_forwarding_cases (call : HandlerCall) (route : ρ) (b : Bool) (cache : ResponseCache) :
    (b = true ∧ call.answer.statusCode = 200 ∧
      handleStep matchRoute cacheable cache (.forwarding call route b)
        = (cache.put call.entry.key call.entry.value call.entry.insertedAt,
          .answered call call.storedResponse .stored)) ∨
    ∃ resp, handleStep matchRoute cacheable cache (.forwarding call route b)
      = (cache, .answered call resp .forwarded) := by
  rw [handleStep]
  dsimp only
  split
  · rename_i hstored
    rw [Bool.and_eq_true, beq_iff_eq] at hstored
    exact .inl ⟨hstored.1, hstored.2, rfl⟩
  · exact .inr ⟨_, rfl⟩

end Steps

/-! ## The cache -/

/-- The cache holds the entries of a list. -/
def Holds (capacity : ℕ) (ttl : ℤ) (cache : ResponseCache) (l : List (Recency.Entry Bytes CachedResponse)) :
    Prop :=
  ∃ c, cache = some c ∧ LRUCache.Refines capacity ttl c l ∧ Recency.Sound capacity l

section Holds

variable {capacity : ℕ} {ttl : ℤ} {cache : ResponseCache}
  {l : List (Recency.Entry Bytes CachedResponse)}

/-- A new cache holds nothing. -/
theorem holds_nil (capacity : ℕ) (ttl : ℤ) : Holds capacity ttl (some { capacity, ttl }) [] := by
  refine ⟨_, rfl, ⟨LRUCache.coherent_empty capacity ttl, rfl, rfl, rfl⟩, ?_, ?_⟩
  · simp
  · simp

/-- The cache looks up as its list does. -/
theorem Holds.apply_get (h : Holds capacity ttl cache l) (key : Bytes) (now : ℤ) :
    (Recency.apply capacity ttl now l (.get key)).1 = .value (cache.get key now).1 ∧
      Holds capacity ttl (cache.get key now).2 (Recency.apply capacity ttl now l (.get key)).2 := by
  obtain ⟨c, rfl, hrefines, hsound⟩ := h
  obtain ⟨found, c', hget, hresult, hrefines'⟩ := hrefines.get key now
  have heq : ResponseCache.get key now (some c) = (found, some c') := by
    simp [ResponseCache.get, hget]
  rw [heq]
  exact ⟨hresult, c', rfl, hrefines', hsound.apply now (.get key)⟩

/-- The cache stores as its list does. -/
theorem Holds.evict_touch (h : Holds capacity ttl cache l) (e : Recency.Entry Bytes CachedResponse) :
    Holds capacity ttl (cache.put e.key e.value e.insertedAt)
      (Recency.evict capacity (Recency.touch e l)) := by
  obtain ⟨c, rfl, hrefines, hsound⟩ := h
  obtain ⟨c', hput, hrefines'⟩ := hrefines.put hsound e.key e.value e.insertedAt
  exact ⟨c', hput, hrefines', hsound.evict_touch e⟩

/-- A lookup adds nothing, and finds only an entry of the key that is not too old. -/
theorem Holds.get (h : Holds capacity ttl cache l) (key : Bytes) (now : ℤ) :
    ∃ l' ⊆ l, Holds capacity ttl (cache.get key now).2 l' ∧
      ∀ cached, (cache.get key now).1 = some cached →
        ∃ e ∈ l, e.key = key ∧ e.value = cached ∧ ¬ e.Expired ttl now := by
  obtain ⟨hresult, hholds⟩ := h.apply_get key now
  rcases Recency.get_cases capacity ttl now l key with ⟨-, heq⟩ | ⟨e, -, -, heq⟩ |
    ⟨e, hlookup, hgood, heq⟩
  · rw [heq] at hresult hholds
    exact ⟨l, List.Subset.refl l, hholds, fun cached hc => by simp [hc] at hresult⟩
  · rw [heq] at hresult hholds
    exact ⟨_, (Recency.remove_sublist key l).subset, hholds, fun cached hc => by simp [hc] at hresult⟩
  · rw [heq] at hresult hholds
    obtain ⟨hmem, hkey⟩ := Recency.mem_of_lookup hlookup
    have hcons : e :: l ⊆ l := List.cons_subset.mpr ⟨hmem, List.Subset.refl l⟩
    refine ⟨_, List.Subset.trans (Recency.touch_subset e l) hcons, hholds, fun cached hc => ?_⟩
    exact ⟨e, hmem, hkey, by simpa [hc] using hresult, hgood⟩

theorem Holds.put (h : Holds capacity ttl cache l) (e : Recency.Entry Bytes CachedResponse) :
    ∃ l' ⊆ e :: l, Holds capacity ttl (cache.put e.key e.value e.insertedAt) l' :=
  ⟨_, List.Subset.trans (Recency.evict_sublist capacity _).subset (Recency.touch_subset e l),
    h.evict_touch e⟩

end Holds

/-! ## Whole runs -/

section Runs

variable {ρ : Type*} (matchRoute : Bytes → Option ρ) (cacheable : ρ → Bool) (capacity : ℕ) (ttl : ℤ)
  (calls : ℕ → HandlerCall)

/-- What is known of a call: only a request that may be answered from the cache, with status 200, is
stored. -/
def Legit (call : HandlerCall) : Handling ρ → Prop
  | .arrived call' => call' = call
  | .forwarding call' route cacheableRequest =>
    call' = call ∧ (cacheableRequest = true → Eligible matchRoute cacheable call route)
  | .answered call' resp source =>
    call' = call ∧ (source = .stored →
      resp = call.storedResponse ∧ call.answer.statusCode = 200 ∧
        ∃ route, Eligible matchRoute cacheable call route)

/-- **Every entry of the cache was stored by a call that was answered with it.** -/
structure Genuine (c : Config ResponseCache (Handling ρ)) : Prop where
  legit : ∀ t, Legit matchRoute cacheable (calls t) (c.threads t)
  entries : ∃ l, Holds capacity ttl c.shared l ∧
    ∀ e ∈ l, ∃ u resp, c.threads u = .answered (calls u) resp .stored ∧ e = (calls u).entry

variable {matchRoute cacheable capacity ttl calls}

theorem genuine_atArrival :
    Genuine matchRoute cacheable capacity ttl calls (atArrival capacity ttl calls) where
  legit _ := rfl
  entries := ⟨[], holds_nil capacity ttl, by simp⟩

/-- A call moves on, and the cache has no entry that is not accounted for. -/
theorem Genuine.move {c : Config ResponseCache (Handling ρ)}
    (h : Genuine matchRoute cacheable capacity ttl calls c) (t : ℕ) {cache : ResponseCache}
    {next : Handling ρ} (hnot : ∀ call resp source, c.threads t ≠ .answered call resp source)
    (hlegit : Legit matchRoute cacheable (calls t) next)
    (hentries : ∀ l, Holds capacity ttl c.shared l → ∃ l', Holds capacity ttl cache l' ∧
      ∀ e ∈ l', e ∈ l ∨ ∃ resp, next = .answered (calls t) resp .stored ∧ e = (calls t).entry) :
    Genuine matchRoute cacheable capacity ttl calls ⟨cache, Function.update c.threads t next⟩ := by
  refine ⟨?_, ?_⟩
  · rw [Function.forall_update_iff c.threads fun u => Legit matchRoute cacheable (calls u)]
    exact ⟨hlegit, fun u _ => h.legit u⟩
  · obtain ⟨l, hholds, horigin⟩ := h.entries
    obtain ⟨l', hholds', hsub⟩ := hentries l hholds
    refine ⟨l', hholds', fun e he => ?_⟩
    rcases hsub e he with hold | ⟨resp, rfl, rfl⟩
    · obtain ⟨u, resp, hu, rfl⟩ := horigin e hold
      have hne : u ≠ t := fun heq => hnot (calls u) resp .stored (heq ▸ hu)
      exact ⟨u, resp, (Function.update_of_ne hne _ _).trans hu, rfl⟩
    · exact ⟨t, resp, Function.update_self _ _ _, rfl⟩

theorem Genuine.step (c : Config ResponseCache (Handling ρ)) (t : ℕ)
    (h : Genuine matchRoute cacheable capacity ttl calls c) :
    Genuine matchRoute cacheable capacity ttl calls
      (stepThread (handleStep matchRoute cacheable) c t) := by
  have hlegit := h.legit t
  -- for the steps that leave the cache as it is
  have hsame : ∀ {next : Handling ρ} l, Holds capacity ttl c.shared l →
      ∃ l', Holds capacity ttl c.shared l' ∧
        ∀ e ∈ l', e ∈ l ∨ ∃ resp, next = .answered (calls t) resp .stored ∧ e = (calls t).entry :=
    fun l hl => ⟨l, hl, fun e he => .inl he⟩
  unfold stepThread
  cases hthread : c.threads t with
  | arrived call =>
    rw [hthread] at hlegit
    obtain rfl : call = calls t := hlegit
    rcases handleStep_arrived matchRoute cacheable (calls t) c.shared with ⟨resp, heq⟩ | ⟨route, heq⟩ |
      ⟨route, heligible, ⟨cache', hget, heq⟩ | ⟨cached, cache', hget, heq⟩⟩
    · rw [heq]
      exact h.move t (by simp [hthread]) ⟨rfl, by simp⟩ hsame
    · rw [heq]
      exact h.move t (by simp [hthread]) ⟨rfl, by simp⟩ hsame
    · rw [heq]
      refine h.move t (by simp [hthread]) ⟨rfl, fun _ => heligible⟩ fun l hl => ?_
      obtain ⟨l', hsub, hl', -⟩ := hl.get (calls t).req.cacheKey (calls t).getTime
      rw [hget] at hl'
      exact ⟨l', hl', fun e he => .inl (hsub he)⟩
    · rw [heq]
      refine h.move t (by simp [hthread]) ⟨rfl, by simp⟩ fun l hl => ?_
      obtain ⟨l', hsub, hl', -⟩ := hl.get (calls t).req.cacheKey (calls t).getTime
      rw [hget] at hl'
      exact ⟨l', hl', fun e he => .inl (hsub he)⟩
  | forwarding call route b =>
    rw [hthread] at hlegit
    obtain ⟨rfl, heligible⟩ := hlegit
    rcases handleStep_forwarding_cases matchRoute cacheable (calls t) route b c.shared with
      ⟨hb, hstatus, heq⟩ | ⟨resp, heq⟩
    · -- the only step that stores something, and it is the call's own entry
      rw [heq]
      refine h.move t (by simp [hthread]) ⟨rfl, fun _ => ⟨rfl, hstatus, route, heligible hb⟩⟩
        fun l hl => ?_
      obtain ⟨l', hsub, hl'⟩ := hl.put (calls t).entry
      refine ⟨l', hl', fun e he => ?_⟩
      rcases List.mem_cons.mp (hsub he) with rfl | hold
      · exact .inr ⟨_, rfl, rfl⟩
      · exact .inl hold
    · rw [heq]
      exact h.move t (by simp [hthread]) ⟨rfl, by simp⟩ hsame
  | answered call resp source =>
    rw [handleStep, ← hthread, Function.update_eq_self]
    exact h

end Runs

/-! ## Keys -/

/-- The parser of a connection has emitted the request, and the gateway has given it an id. -/
def FromParser (req : HttpRequest) : Prop :=
  ∃ p q r requestId, Reached p ∧ p.parse {} = (.Complete, q, r) ∧ req = { r with requestId }

theorem FromParser.clean {req : HttpRequest} (h : FromParser req) :
    sp ∉ req.method ∧ questionMark ∉ req.path := by
  obtain ⟨p, q, r, requestId, hreached, hparse, rfl⟩ := h
  obtain ⟨k, hk, -, hr⟩ := hreached.emitted hparse
  have hmethod : r.method = k.method := congrArg HttpRequest.method hr
  have hpath : r.path = k.path := congrArg HttpRequest.path hr
  refine ⟨?_, fun hmem => (hk.path_clean questionMark (hpath ▸ hmem)).1 rfl⟩
  rw [hmethod]
  exact RequestLine.not_mem_of_isMethodChar hk.method_chars (by decide)

/-- **Requests of the parser with one key have one target**: a method has no space, a path has no question
mark, and no query is the empty one. -/
theorem cacheKey_inj {req req' : HttpRequest} (h : FromParser req) (h' : FromParser req')
    (hkey : req.cacheKey = req'.cacheKey) :
    req.method = req'.method ∧ req.path = req'.path ∧ req.query = req'.query := by
  -- with one more question mark, keys with and without a query have one form
  have hsplit : ∀ r : HttpRequest, r.cacheKey ++ [questionMark]
      = r.method ++ sp :: (r.path ++ questionMark :: if r.query = [] then [] else r.query ++ [questionMark]) := by
    intro r
    unfold HttpRequest.cacheKey
    split <;> simp
  have heq := congrArg (· ++ [questionMark]) hkey
  simp only [hsplit] at heq
  obtain ⟨hmethod, hrest⟩ := append_cons_inj h.clean.1 h'.clean.1 heq
  obtain ⟨hpath, htail⟩ := append_cons_inj h.clean.2 h'.clean.2 hrest
  refine ⟨hmethod, hpath, ?_⟩
  by_cases hq : req.query = []
  · by_cases hq' : req'.query = []
    · rw [hq, hq']
    · simp [hq, hq'] at htail
  · by_cases hq' : req'.query = []
    · simp [hq, hq'] at htail
    · simpa [hq, hq'] using htail

/-! ## Headers -/

/-- The same headers in the same places; values may differ under some of the names. -/
def SameButFor (names : List Bytes) (hs hs' : List (Bytes × Bytes)) : Prop :=
  List.Forall₂ (fun h h' => h'.1 = h.1 ∧ (h.1 ∉ names → h'.2 = h.2)) hs hs'

theorem SameButFor.refl (names : List Bytes) (hs : List (Bytes × Bytes)) : SameButFor names hs hs :=
  List.forall₂_same.mpr fun _ _ => ⟨rfl, fun _ => rfl⟩

theorem SameButFor.trans {names : List Bytes} {hs₁ hs₂ hs₃ : List (Bytes × Bytes)}
    (h : SameButFor names hs₁ hs₂) (h' : SameButFor names hs₂ hs₃) : SameButFor names hs₁ hs₃ := by
  induction h generalizing hs₃ with
  | nil => exact h'
  | cons hhead _ ih =>
    cases h' with
    | cons hhead' htail' =>
      refine .cons ⟨hhead'.1.trans hhead.1, fun hnot => ?_⟩ (ih htail')
      exact (hhead'.2 (hhead.1 ▸ hnot)).trans (hhead.2 hnot)

/-- A header that is there is overwritten in its place. -/
theorem sameButFor_setHeader {names : List Bytes} {k : Bytes} (hk : k ∈ names) (v : Bytes)
    {hs : List (Bytes × Bytes)} (hmem : k ∈ hs.map Prod.fst) :
    SameButFor names hs (HttpResponse.setHeader.go k v hs) := by
  induction hs with
  | nil => simp at hmem
  | cons h hs ih =>
    rw [HttpResponse.setHeader.go]
    split
    · rename_i heq
      exact .cons ⟨heq.symm, fun hnot => absurd (heq ▸ hk) hnot⟩ (SameButFor.refl names hs)
    · rename_i hne
      refine .cons ⟨rfl, fun _ => rfl⟩ (ih ?_)
      simpa [Ne.symm hne] using hmem

theorem mem_names_setHeader (k v : Bytes) (hs : List (Bytes × Bytes)) :
    k ∈ (HttpResponse.setHeader.go k v hs).map Prod.fst ∧
      ∀ name ∈ hs.map Prod.fst, name ∈ (HttpResponse.setHeader.go k v hs).map Prod.fst := by
  induction hs with
  | nil => simp [HttpResponse.setHeader.go]
  | cons h hs ih =>
    rw [HttpResponse.setHeader.go]
    split
    · rename_i heq
      simp [heq]
    · simp only [List.map_cons, List.mem_cons]
      exact ⟨.inr ih.1, fun name hname => hname.imp_right (ih.2 name)⟩

/-- The headers that are replaced in a hit. -/
def renewed : List Bytes := [bytes "X-Cache", bytes "X-Request-Id"]

/-- A stored response is replayed as it was queued, with two headers renewed. -/
theorem replay_entry (call : HandlerCall) (requestId : Bytes) :
    let resp := replay call.entry.value requestId
    resp.statusCode = call.storedResponse.statusCode ∧
      resp.statusText = call.storedResponse.statusText ∧ resp.body = call.storedResponse.body ∧
      SameButFor renewed call.storedResponse.headers resp.headers := by
  refine ⟨rfl, rfl, rfl, ?_⟩
  set withId := HttpResponse.setHeader.go (bytes "X-Request-Id") call.req.requestId call.answer.headers
  obtain ⟨hcache, hkept⟩ := mem_names_setHeader (bytes "X-Cache") (bytes "MISS") withId
  have hid := hkept _ (mem_names_setHeader (bytes "X-Request-Id") call.req.requestId _).1
  have hfirst : SameButFor renewed _ _ :=
    sameButFor_setHeader List.mem_cons_self (bytes "HIT") hcache
  refine hfirst.trans (sameButFor_setHeader (by decide) requestId ?_)
  exact (mem_names_setHeader (bytes "X-Cache") (bytes "HIT") _).2 _ hid

/-- **A hit repeats a genuine answer.** Take any calls for requests of the parser, in any interleaving.
If the next step of a call is answered from the cache, then an earlier call for the same method (`GET` or
`HEAD`), path and query, on the same cacheable route, had an answer of status 200, stored it within the
time to live, and was answered with the same response up to the values of `X-Cache` and `X-Request-Id`.
Nothing is ever stored by another call, and the cache holds nothing else. -/
theorem cache_hit_genuine {ρ : Type*} (matchRoute : Bytes → Option ρ) (cacheable : ρ → Bool)
    (capacity : ℕ) (ttl : ℤ) (calls : ℕ → HandlerCall) (hparsed : ∀ t, FromParser (calls t).req)
    (schedule : List ℕ) :
    let c := run (handleStep matchRoute cacheable) schedule (atArrival capacity ttl calls)
    (∀ t resp, c.threads t = .arrived (calls t) →
      (stepThread (handleStep matchRoute cacheable) c t).threads t = .answered (calls t) resp .hit →
      ∃ u earlier route, c.threads u = .answered (calls u) earlier .stored ∧
        (calls u).req.method = (calls t).req.method ∧ (calls u).req.path = (calls t).req.path ∧
        (calls u).req.query = (calls t).req.query ∧
        Eligible matchRoute cacheable (calls u) route ∧ Eligible matchRoute cacheable (calls t) route ∧
        (calls u).answer.statusCode = 200 ∧
        (0 < ttl → (calls t).getTime - (calls u).putTime ≤ ttl) ∧
        resp.statusCode = earlier.statusCode ∧ resp.statusText = earlier.statusText ∧
        resp.body = earlier.body ∧ SameButFor renewed earlier.headers resp.headers) ∧
    (∀ u earlier, c.threads u = .answered (calls u) earlier .stored →
      earlier.statusCode = 200 ∧ ∃ route, Eligible matchRoute cacheable (calls u) route) ∧
    ∃ cache, c.shared = some cache ∧ ∀ e ∈ cache.entries,
      ∃ u earlier, c.threads u = .answered (calls u) earlier .stored ∧ e.key = (calls u).req.cacheKey ∧
        e.value = ⟨earlier.statusCode, earlier.statusText, earlier.headers, earlier.body⟩ := by
  intro c
  have hgenuine : Genuine matchRoute cacheable capacity ttl calls c :=
    run_invariant Genuine.step schedule genuine_atArrival
  have hstored : ∀ u earlier, c.threads u = .answered (calls u) earlier .stored →
      earlier = (calls u).storedResponse ∧ (calls u).answer.statusCode = 200 ∧
        ∃ route, Eligible matchRoute cacheable (calls u) route := by
    intro u earlier hu
    have hlegit := hgenuine.legit u
    rw [hu] at hlegit
    exact hlegit.2 rfl
  obtain ⟨l, hholds, horigin⟩ := hgenuine.entries
  refine ⟨?_, ?_, ?_⟩
  · intro t resp hthread hhit
    rw [stepThread_self, hthread] at hhit
    rcases handleStep_arrived matchRoute cacheable (calls t) c.shared with ⟨resp, heq⟩ | ⟨route, heq⟩ |
      ⟨route, heligible, ⟨cache', hget, heq⟩ | ⟨cached, cache', hget, heq⟩⟩
    · simp [heq] at hhit
    · simp [heq] at hhit
    · simp [heq] at hhit
    · obtain rfl : replay cached (calls t).req.requestId = resp := by
        simpa [heq] using hhit
      -- from the entry to the call that stored it, and from the key to the target
      obtain ⟨l', -, -, hfound⟩ := hholds.get (calls t).req.cacheKey (calls t).getTime
      obtain ⟨e, he, hkey, rfl, hgood⟩ := hfound cached (by rw [hget])
      obtain ⟨u, earlier, hu, rfl⟩ := horigin e he
      obtain ⟨rfl, hstatus, route', heligible'⟩ := hstored u earlier hu
      obtain ⟨hmethod, hpath, hquery⟩ := cacheKey_inj (hparsed u) (hparsed t) hkey
      have hroute : route' = route := by
        have := heligible'.matches_route
        rw [hpath, heligible.matches_route] at this
        exact (Option.some.inj this).symm
      subst hroute
      refine ⟨u, _, route', hu, hmethod, hpath, hquery, heligible', heligible, hstatus, ?_,
        replay_entry (calls u) (calls t).req.requestId⟩
      intro hpos
      by_contra hold
      exact hgood ⟨hpos, not_le.mp hold⟩
  · intro u earlier hu
    obtain ⟨rfl, hstatus, heligible⟩ := hstored u earlier hu
    exact ⟨hstatus, heligible⟩
  · obtain ⟨cache, hcache, hrefines, -⟩ := hholds
    refine ⟨cache, hcache, fun e he => ?_⟩
    obtain ⟨u, earlier, hu, rfl⟩ := horigin e (hrefines.entries_eq ▸ he)
    obtain ⟨rfl, -, -⟩ := hstored u earlier hu
    exact ⟨u, _, hu, rfl, rfl⟩

/-- A parser that has received a request. -/
def requestReceived : HttpParser := HttpParser.append {} (bytes "GET /a?b HTTP/1.1\r\nHost: c\r\n\r\n")

/-- The same request again and again. -/
def repeated (t : ℕ) : HandlerCall where
  req := { (requestReceived.parse {}).2.2 with requestId := decimal t }
  answer := { body := bytes "d", headers := [(bytes "X-Cache", bytes "no"), (bytes "Age", bytes "0")] }
  getTime := t
  putTime := t

theorem fromParser_repeated (t : ℕ) : FromParser (repeated t).req := by
  have hcomplete : (requestReceived.parse {}).1 = .Complete := by decide
  exact ⟨requestReceived, _, _, _, .append _ .fresh, Prod.ext hcomplete rfl, rfl⟩

/-- The second request is answered from the cache. -/
theorem cache_hit_genuine_repeated :
    let c := run (handleStep (fun _ => some ()) fun _ => true) [0, 0] (atArrival 2 10 repeated)
    ∃ resp, (stepThread (handleStep (fun _ => some ()) fun _ => true) c 1).threads 1
        = .answered (repeated 1) resp .hit ∧
      ∃ u earlier, c.threads u = .answered (repeated u) earlier .stored ∧
        SameButFor renewed earlier.headers resp.headers := by
  intro c
  have hhit : (stepThread (handleStep (fun _ => some ()) fun _ => true) c 1).threads 1
      = .answered (repeated 1) (replay (repeated 0).entry.value (decimal 1)) .hit := by decide
  refine ⟨_, hhit, ?_⟩
  obtain ⟨u, earlier, -, hu, -, -, -, -, -, -, -, -, -, -, hheaders⟩ :=
    (cache_hit_genuine (fun _ => some ()) (fun _ => true) 2 10 repeated fromParser_repeated [0, 0]).1
      1 _ rfl hhit
  exact ⟨u, earlier, hu, hheaders⟩

end ApiGateway.Core
