import ApiGateway.Core.BackendRequest
import ApiGateway.Core.Replay

/-!
# What one request changes for others

Two runs of the same calls, in the same interleaving, which differ in the value of one header of one
request. The backends see the header, but the key of the cache does not hold it. So the answer to the one
request may be replayed to others for the same target, and a response that is stored in one of the runs
only may cost another key its place. There is no other way from one request to the response of another:
without hits two calls do not depend on each other (`handleStep_congr`), and with room for all keys what
the cache holds for one key does not depend on the calls for another (`Apart.step`).

Reference: `Worker::handleRequest` and `buildBackendRequest` in `src/core/Gateway.cpp`,
`HttpRequest::cacheKey` in `include/http/HttpRequest.hpp`.
-/

namespace ApiGateway.Core

open Str Http Cache Interleaving Recency

/-! ## Two runs -/

/-- The answer is what the backends say to the forwarded request, its id aside; `order` lists the headers
as the loop meets them. -/
structure AnsweredBy (backends : Bytes → HttpResponse) (order : HeaderMap → List (Σ _ : Bytes, Bytes))
    (host : Bytes) (call : HandlerCall) : Prop where
  order_eq : (order call.req.headers : Multiset (Σ _ : Bytes, Bytes)) = call.req.headers.entries
  answer_eq : call.answer
    = backends (buildBackendRequest { call.req with requestId := [] } (order call.req.headers) host)

/-- The same calls, but for the value of one forwarded header in the request of call `a`. The text of
`/metrics` may be another one, and so may the answers. -/
structure Varied (a : ℕ) (name value : Bytes) (calls calls' : ℕ → HandlerCall) : Prop where
  end_to_end : name ∉ hopByHop
  present : name ∈ (calls a).req.headers
  req_self : (calls' a).req = { (calls a).req with headers := (calls a).req.headers.insert name value }
  req_other : ∀ t ≠ a, (calls' t).req = (calls t).req
  metrics : ∀ t, (calls t).req.path ≠ bytes "/metrics" → (calls' t).metrics = (calls t).metrics
  allowed : ∀ t, (calls' t).allowed = (calls t).allowed
  getTime : ∀ t, (calls' t).getTime = (calls t).getTime
  putTime : ∀ t, (calls' t).putTime = (calls t).putTime

namespace Varied

variable {a : ℕ} {name value : Bytes} {calls calls' : ℕ → HandlerCall}

theorem cacheKey (h : Varied a name value calls calls') (t : ℕ) :
    (calls' t).req.cacheKey = (calls t).req.cacheKey := by
  by_cases ht : t = a
  · rw [ht, h.req_self]
    rfl
  · rw [h.req_other t ht]

theorem path (h : Varied a name value calls calls') (t : ℕ) :
    (calls' t).req.path = (calls t).req.path := by
  by_cases ht : t = a
  · rw [ht, h.req_self]
  · rw [h.req_other t ht]

/-- With the same backends, a call for another request is the same in both runs. -/
theorem call_eq (h : Varied a name value calls calls') {backends : Bytes → HttpResponse}
    {order : HeaderMap → List (Σ _ : Bytes, Bytes)} {host : Bytes} {t : ℕ} (ht : t ≠ a)
    (hmetrics : (calls t).req.path ≠ bytes "/metrics")
    (hanswer : AnsweredBy backends order host (calls t))
    (hanswer' : AnsweredBy backends order host (calls' t)) : calls' t = calls t := by
  have hreq := h.req_other t ht
  have heq : (calls' t).answer = (calls t).answer := by
    rw [hanswer.answer_eq, hanswer'.answer_eq, hreq]
  have hmetrics' := h.metrics t hmetrics
  have hallowed := h.allowed t
  have hgetTime := h.getTime t
  have hputTime := h.putTime t
  generalize calls t = call at *
  generalize calls' t = call' at *
  cases call
  cases call'
  simp_all

end Varied

/-! ## Calls that do not depend on each other -/

section Steps

variable {ρ : Type*} (matchRoute : Bytes → Option ρ) (cacheable : ρ → Bool)

/-- The call that is handled. -/
def Handling.call : Handling ρ → HandlerCall
  | .arrived call => call
  | .forwarding call _ _ => call
  | .answered call _ _ => call

/-- Answered from the cache. -/
def Handling.Hit (s : Handling ρ) : Prop := ∃ call resp, s = .answered call resp .hit

variable {matchRoute cacheable}

theorem Handling.Hit.step {s : Handling ρ} (h : s.Hit) (cache : ResponseCache) :
    (handleStep matchRoute cacheable cache s).2.Hit := by
  obtain ⟨call, resp, rfl⟩ := h
  exact ⟨call, resp, rfl⟩

theorem hit_afterLookup (call : HandlerCall) (route : ρ) (cached : CachedResponse) :
    (afterLookup call route (some cached)).Hit :=
  ⟨call, _, rfl⟩

/-- A call is as far in one run as in the other, or has been answered from the cache in one of them. -/
def SameUnlessHit (matchRoute : Bytes → Option ρ) (cacheable : ρ → Bool) (call : HandlerCall)
    (s s' : Handling ρ) : Prop :=
  s' = s ∨ (∃ route, Eligible matchRoute cacheable call route) ∧ (s.Hit ∨ s'.Hit)

/-- **Without hits the cache does not matter.** -/
theorem handleStep_congr (s : Handling ρ) (cache cache' : ResponseCache) :
    SameUnlessHit matchRoute cacheable s.call (handleStep matchRoute cacheable cache s).2
      (handleStep matchRoute cacheable cache' s).2 := by
  cases s with
  | arrived call =>
    rcases handleStep_arrived_cases matchRoute cacheable call with ⟨resp, heq⟩ | ⟨-, route, heq⟩ |
      ⟨-, route, heligible, heq⟩
    · rw [heq, heq]
      exact .inl rfl
    · rw [heq, heq]
      exact .inl rfl
    · rw [heq, heq]
      cases (cache.get call.req.cacheKey call.getTime).1 with
      | some cached => exact .inr ⟨⟨route, heligible⟩, .inl (hit_afterLookup call route cached)⟩
      | none =>
        cases (cache'.get call.req.cacheKey call.getTime).1 with
        | some cached => exact .inr ⟨⟨route, heligible⟩, .inr (hit_afterLookup call route cached)⟩
        | none => exact .inl rfl
  | forwarding call route b =>
    refine .inl ?_
    simp only [handleStep]
    split
    · rfl
    · rfl
  | answered call resp source => exact .inl rfl

theorem SameUnlessHit.step {s s' : Handling ρ} (h : SameUnlessHit matchRoute cacheable s.call s s')
    (cache cache' : ResponseCache) :
    SameUnlessHit matchRoute cacheable s.call (handleStep matchRoute cacheable cache s).2
      (handleStep matchRoute cacheable cache' s').2 := by
  rcases h with rfl | ⟨heligible, hhit | hhit⟩
  · exact handleStep_congr _ cache cache'
  · exact .inr ⟨heligible, .inl (hhit.step cache)⟩
  · exact .inr ⟨heligible, .inr (hhit.step cache')⟩

/-- What is known of a call on its way: what is to be stored has come past a lookup. -/
structure Tracked (matchRoute : Bytes → Option ρ) (cacheable : ρ → Bool) (call : HandlerCall)
    (s : Handling ρ) : Prop where
  call_eq : s.call = call
  looked_up : ∀ route, s = .forwarding call route true →
    call.req.path ≠ bytes "/metrics" ∧ Eligible matchRoute cacheable call route

theorem Tracked.step {call : HandlerCall} {s : Handling ρ} (h : Tracked matchRoute cacheable call s)
    (cache : ResponseCache) :
    Tracked matchRoute cacheable call (handleStep matchRoute cacheable cache s).2 := by
  obtain ⟨rfl, hlooked⟩ := h
  cases s with
  | arrived call =>
    rcases handleStep_arrived_cases matchRoute cacheable call with ⟨resp, heq⟩ | ⟨-, route, heq⟩ |
      ⟨hmetrics, route, heligible, heq⟩
    · rw [heq]
      exact ⟨rfl, by simp⟩
    · rw [heq]
      exact ⟨rfl, by simp⟩
    · rw [heq]
      cases (cache.get call.req.cacheKey call.getTime).1 with
      | some cached => exact ⟨rfl, by simp [afterLookup]⟩
      | none =>
        refine ⟨rfl, fun route' hroute => ?_⟩
        obtain rfl : route = route' := (Handling.forwarding.inj hroute).2.1
        exact ⟨hmetrics, heligible⟩
  | forwarding call route b =>
    rcases handleStep_forwarding_cases matchRoute cacheable call route b cache with ⟨-, -, heq⟩ |
      ⟨resp, heq⟩
    · rw [heq]
      exact ⟨rfl, by simp⟩
    · rw [heq]
      exact ⟨rfl, by simp⟩
  | answered call resp source => exact ⟨rfl, hlooked⟩

end Steps

/-! ## A cache with room for all keys -/

/-- The cache holds the entries of a list, all under some keys. -/
structure Roomy (capacity : ℕ) (ttl : ℤ) (keys : List Bytes) (cache : ResponseCache)
    (l : List (Entry Bytes CachedResponse)) : Prop where
  holds : Holds capacity ttl cache l
  within : Within keys l

section Roomy

variable {capacity : ℕ} {ttl : ℤ} {keys : List Bytes} {cache cache' : ResponseCache}
  {l l' : List (Entry Bytes CachedResponse)}

theorem Roomy.get (h : Roomy capacity ttl keys cache l) (key : Bytes) (now : ℤ) :
    Roomy capacity ttl keys (cache.get key now).2 (apply capacity ttl now l (.get key)).2 :=
  ⟨(h.holds.apply_get key now).2, h.within.get capacity ttl now key⟩

theorem Roomy.put (h : Roomy capacity ttl keys cache l) (hroom : keys.length ≤ capacity)
    {e : Entry Bytes CachedResponse} (he : e.key ∈ keys) :
    Roomy capacity ttl keys (cache.put e.key e.value e.insertedAt) (touch e l) := by
  have hholds := h.holds.evict_touch e
  obtain ⟨c, -, -, hsound⟩ := h.holds
  rw [(h.within.touch he).evict (nodup_touch hsound.nodup e) hroom] at hholds
  exact ⟨hholds, h.within.touch he⟩

/-- Caches that hold the same without a key find the same under another one. -/
theorem Roomy.get_congr (h : Roomy capacity ttl keys cache l) (h' : Roomy capacity ttl keys cache' l')
    {key other : Bytes} (hne : key ≠ other) (hsame : remove other l' = remove other l) (now : ℤ) :
    (cache'.get key now).1 = (cache.get key now).1 ∧
      remove other (apply capacity ttl now l' (.get key)).2
        = remove other (apply capacity ttl now l (.get key)).2 := by
  have heq := get_remove_of_ne capacity ttl now l hne
  rw [← hsame, get_remove_of_ne capacity ttl now l' hne, Prod.mk.injEq] at heq
  refine ⟨?_, heq.2⟩
  have hfound := (h'.holds.apply_get key now).1
  rw [heq.1, (h.holds.apply_get key now).1] at hfound
  exact (Result.value.inj hfound).symm

variable {ρ : Type*} {matchRoute : Bytes → Option ρ} {cacheable : ρ → Bool} {call : HandlerCall}
  {s : Handling ρ}

/-- A step of a call leaves the cache as it is, but for the key of the call. -/
theorem Roomy.step (h : Roomy capacity ttl keys cache l) (hroom : keys.length ≤ capacity)
    (hs : Tracked matchRoute cacheable call s)
    (hkeys : ∀ route, Eligible matchRoute cacheable call route → call.req.cacheKey ∈ keys) :
    ∃ l', Roomy capacity ttl keys (handleStep matchRoute cacheable cache s).1 l' ∧
      (l' = l ∨ call.req.path ≠ bytes "/metrics" ∧
        remove call.req.cacheKey l' = remove call.req.cacheKey l) := by
  obtain ⟨rfl, hlooked⟩ := hs
  cases s with
  | arrived call =>
    rcases handleStep_arrived_cases matchRoute cacheable call with ⟨resp, heq⟩ | ⟨-, route, heq⟩ |
      ⟨hmetrics, route, heligible, heq⟩
    · rw [heq]
      exact ⟨l, h, .inl rfl⟩
    · rw [heq]
      exact ⟨l, h, .inl rfl⟩
    · rw [heq]
      exact ⟨_, h.get call.req.cacheKey call.getTime,
        .inr ⟨hmetrics, remove_get_self capacity ttl call.getTime l call.req.cacheKey⟩⟩
  | forwarding call route b =>
    rcases handleStep_forwarding_cases matchRoute cacheable call route b cache with ⟨rfl, -, heq⟩ |
      ⟨resp, heq⟩
    · rw [heq]
      obtain ⟨hmetrics, heligible⟩ := hlooked route rfl
      exact ⟨_, h.put hroom (e := call.entry) (hkeys route heligible),
        .inr ⟨hmetrics, remove_touch_self call.entry l⟩⟩
    · rw [heq]
      exact ⟨l, h, .inl rfl⟩
  | answered call resp source => exact ⟨l, h, .inl rfl⟩

/-- A step of a call for another key, with caches that hold the same without a key. -/
theorem Roomy.step_congr (h : Roomy capacity ttl keys cache l) (h' : Roomy capacity ttl keys cache' l')
    (hroom : keys.length ≤ capacity) (hs : Tracked matchRoute cacheable call s)
    (hkeys : ∀ route, Eligible matchRoute cacheable call route → call.req.cacheKey ∈ keys)
    {other : Bytes} (hne : call.req.cacheKey ≠ other) (hsame : remove other l' = remove other l) :
    (handleStep matchRoute cacheable cache' s).2 = (handleStep matchRoute cacheable cache s).2 ∧
    ∃ l₁ l₁', Roomy capacity ttl keys (handleStep matchRoute cacheable cache s).1 l₁ ∧
      Roomy capacity ttl keys (handleStep matchRoute cacheable cache' s).1 l₁' ∧
      remove other l₁' = remove other l₁ := by
  obtain ⟨rfl, hlooked⟩ := hs
  cases s with
  | arrived call =>
    rcases handleStep_arrived_cases matchRoute cacheable call with ⟨resp, heq⟩ | ⟨-, route, heq⟩ |
      ⟨-, route, -, heq⟩
    · rw [heq, heq]
      exact ⟨rfl, l, l', h, h', hsame⟩
    · rw [heq, heq]
      exact ⟨rfl, l, l', h, h', hsame⟩
    · rw [heq, heq]
      obtain ⟨hfound, hrest⟩ := h.get_congr h' hne hsame call.getTime
      exact ⟨congrArg (afterLookup call route) hfound, _, _, h.get _ _, h'.get _ _, hrest⟩
  | forwarding call route b =>
    simp only [handleStep]
    split
    · rename_i hstored
      obtain ⟨rfl, -⟩ := Bool.and_eq_true_iff.mp hstored
      have he : call.entry.key ∈ keys := hkeys route (hlooked route rfl).2
      refine ⟨rfl, _, _, h.put hroom he, h'.put hroom he, ?_⟩
      rw [remove_touch_of_ne hne, remove_touch_of_ne hne, hsame]
    · exact ⟨rfl, l, l', h, h', hsame⟩
  | answered call resp source => exact ⟨rfl, l, l', h, h', hsame⟩

end Roomy

/-! ## Whole runs -/

section Runs

variable {ρ : Type*} (matchRoute : Bytes → Option ρ) (cacheable : ρ → Bool) (capacity : ℕ) (ttl : ℤ)
  (calls calls' : ℕ → HandlerCall)

/-- The two runs differ at most in calls for one key, in what the cache holds for it, and in the text of
`/metrics`. -/
structure Apart (keys : List Bytes) (key : Bytes) (c c' : Config ResponseCache (Handling ρ)) : Prop where
  tracked : ∀ u, Tracked matchRoute cacheable (calls u) (c.threads u)
  tracked' : ∀ u, Tracked matchRoute cacheable (calls' u) (c'.threads u)
  threads : ∀ u, (calls u).req.path ≠ bytes "/metrics" → (calls u).req.cacheKey ≠ key →
    c'.threads u = c.threads u
  caches : ∃ l l', Roomy capacity ttl keys c.shared l ∧ Roomy capacity ttl keys c'.shared l' ∧
    remove key l' = remove key l

variable {matchRoute cacheable capacity ttl calls calls'} {keys : List Bytes}
  {c c' : Config ResponseCache (Handling ρ)}

theorem tracked_stepThread (h : ∀ u, Tracked matchRoute cacheable (calls u) (c.threads u)) (t : ℕ) :
    ∀ u, Tracked matchRoute cacheable (calls u)
      ((stepThread (handleStep matchRoute cacheable) c t).threads u) := by
  intro u
  by_cases hu : u = t
  · rw [hu, stepThread_self]
    exact (h t).step c.shared
  · rw [stepThread_of_ne c hu]
    exact h u

theorem Apart.step {key : Bytes} (h : Apart matchRoute cacheable capacity ttl calls calls' keys key c c')
    (hroom : keys.length ≤ capacity) {t : ℕ}
    (hkeys : ∀ route, Eligible matchRoute cacheable (calls t) route → (calls t).req.cacheKey ∈ keys)
    (hkeys' : ∀ route, Eligible matchRoute cacheable (calls' t) route → (calls' t).req.cacheKey ∈ keys)
    (hcacheKey : (calls' t).req.cacheKey = (calls t).req.cacheKey)
    (hpath : (calls' t).req.path = (calls t).req.path) :
    Apart matchRoute cacheable capacity ttl calls calls' keys key
      (stepThread (handleStep matchRoute cacheable) c t)
      (stepThread (handleStep matchRoute cacheable) c' t) := by
  obtain ⟨l, l', hl, hl', hsame⟩ := h.caches
  refine ⟨tracked_stepThread h.tracked t, tracked_stepThread h.tracked' t, ?_, ?_⟩
  · intro u hmetrics hne
    by_cases hu : u = t
    · subst hu
      rw [stepThread_self, stepThread_self, h.threads u hmetrics hne]
      exact (hl.step_congr hl' hroom (h.tracked u) hkeys hne hsame).1
    · rw [stepThread_of_ne c hu, stepThread_of_ne c' hu]
      exact h.threads u hmetrics hne
  · by_cases hother : (calls t).req.path ≠ bytes "/metrics" ∧ (calls t).req.cacheKey ≠ key
    · -- the thread takes the same step in both runs
      unfold stepThread
      rw [h.threads t hother.1 hother.2]
      exact (hl.step_congr hl' hroom (h.tracked t) hkeys hother.2 hsame).2
    · -- whatever the two steps are, they leave the other keys
      have hleaves : ∀ l₁ l₂ : List (Entry Bytes CachedResponse),
          (l₂ = l₁ ∨ (calls t).req.path ≠ bytes "/metrics" ∧
            remove (calls t).req.cacheKey l₂ = remove (calls t).req.cacheKey l₁) →
          remove key l₂ = remove key l₁ := by
        rintro l₁ l₂ (rfl | ⟨hmetrics, hrest⟩)
        · rfl
        · have hkey : (calls t).req.cacheKey = key := by
            by_contra hne
            exact hother ⟨hmetrics, hne⟩
          rw [← hkey, hrest]
      obtain ⟨l₁, hl₁, heq⟩ := hl.step hroom (h.tracked t) hkeys
      obtain ⟨l₁', hl₁', heq'⟩ := hl'.step hroom (h.tracked' t) hkeys'
      rw [hpath, hcacheKey] at heq'
      refine ⟨l₁, l₁', hl₁, hl₁', ?_⟩
      rw [hleaves l' l₁' heq', hleaves l l₁ heq, hsame]

end Runs

/-! ## What others see -/

/-- A backend that repeats what it is asked. -/
def echo (request : Bytes) : HttpResponse := { body := request }

/-- Headers that are at most credentials, as a list. -/
def listed (headers : HeaderMap) : List (Σ _ : Bytes, Bytes) :=
  (headers.lookup (bytes "authorization")).toList.map fun value => ⟨bytes "authorization", value⟩

/-- A parser that has received one of the requests: two for `/a`, the first of them with credentials, then
others for `/b`. -/
def incoming (credentials : Bytes) : ℕ → HttpParser
  | 0 => HttpParser.append {}
    (bytes "GET /a HTTP/1.1\r\nAuthorization: " ++ credentials ++ bytes "\r\n\r\n")
  | 1 => HttpParser.append {} (bytes "GET /a HTTP/1.1\r\n\r\n")
  | _ => HttpParser.append {} (bytes "GET /b HTTP/1.1\r\n\r\n")

/-- The requests, answered by that backend. -/
def asked (credentials : Bytes) (t : ℕ) : HandlerCall :=
  let req := { ((incoming credentials t).parse {}).2.2 with requestId := decimal t }
  { req
    answer := echo (buildBackendRequest { req with requestId := [] } (listed req.headers) (bytes "c"))
    getTime := t
    putTime := t }

end ApiGateway.Core
