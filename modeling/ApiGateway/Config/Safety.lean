import ApiGateway.Config.KeyOrder

/-!
# What a configuration promises to its consumers

The validation of `loadFromFile` looks at some of the numbers only. The limits that are kept in a `size_t`
have gone through an `int`, so that a negative number of the file becomes a limit that never applies; the
number of retries is incremented, and the delays are the end of an interval that starts at zero.

Each of these settings is read off the file as the last number that `stoi` accepts for its key, wherever
it stands in its section (`Setting.get_readLines`). So whether an accepted configuration is safe can be
read off the file (`accepted_safe_iff`).

Reference: `src/config/Config.cpp`, `include/resilience/RetryPolicy.hpp`, and
`Gateway::forwardWithResilience` in `src/core/Gateway.cpp`.
-/

namespace ApiGateway.Config

open Str Http

/-! ## Consumers -/

/-- `RetryPolicy`, with its delays in milliseconds. -/
structure RetryPolicy where
  maxRetries : ℤ
  baseDelay : ℤ
  maxDelay : ℤ
deriving DecidableEq, Repr

/-- The end of the interval `nextDelay` draws from. The source computes it in a `double`, which holds an
`int` times a power of two until that is infinite, and has the same sign as this one in any case. -/
def RetryPolicy.backoff (p : RetryPolicy) (attempt : ℕ) : ℤ := min p.maxDelay (p.baseDelay * 2 ^ attempt)

/-- `attempts` in `forwardWithResilience`, before it is put into an `int`. -/
def RetryPolicy.attempts (p : RetryPolicy) : ℤ := p.maxRetries + 1

section Safe

variable {δ : Type}

def GatewayConfig.retryPolicy (cfg : GatewayConfig δ) : RetryPolicy where
  maxRetries := cfg.retryMax
  baseDelay := cfg.retryBaseDelayMs
  maxDelay := cfg.retryMaxDelayMs

/-- `INT_MAX` -/
def intMax : ℕ := 2 ^ 31 - 1

/-- What the consumers of a configuration rely on. -/
structure Safe (cfg : GatewayConfig δ) : Prop where
  cacheCapacity : cfg.cacheCapacity ≤ intMax
  maxResponseBodyBytes : cfg.maxResponseBodyBytes ≤ intMax
  maxIdleConnsPerBackend : cfg.maxIdleConnsPerBackend ≤ intMax
  no_overflow : InInt cfg.retryPolicy.attempts
  some_attempt : 1 ≤ cfg.retryPolicy.attempts
  baseDelay : 0 ≤ cfg.retryPolicy.baseDelay
  maxDelay : 0 ≤ cfg.retryPolicy.maxDelay
  jitter : ∀ attempt, 0 ≤ cfg.retryPolicy.backoff attempt

end Safe

/-! ## Numbers of a file -/

/-- The texts that are given for a key of a section, of which `current` is the one at the first line. -/
def given (name key : Bytes) (current : Bytes) : List Line → List Bytes
  | [] => []
  | ln :: lines =>
    let kv := splitKv ln.content
    if ln.indent = 0 then given name key kv.1 lines
    else if current = name ∧ kv.1 = key then kv.2 :: given name key current lines
    else given name key current lines

/-- The last number among the texts. -/
def lastNumber (default : ℤ) (texts : List Bytes) : ℤ := (texts.filterMap stoi).getLast?.getD default

/-- The number that the lines of a file give for a key of a section. -/
def number (lines : List Line) (name key : Bytes) (default : ℤ) : ℤ :=
  lastNumber default (given name key [] lines)

/-- The numbers of a file are in order. -/
structure Sane (lines : List Line) : Prop where
  cacheCapacity : 0 ≤ number lines (bytes "cache") (bytes "capacity") 1000
  maxResponseBodyBytes :
    0 ≤ number lines (bytes "connection") (bytes "max_response_body_bytes") (10 * 1024 * 1024)
  maxIdleConnsPerBackend : 0 ≤ number lines (bytes "connection") (bytes "max_idle_per_backend") 16
  retryMax : 0 ≤ number lines (bytes "retry") (bytes "max_retries") 2
  retryMax_lt : number lines (bytes "retry") (bytes "max_retries") 2 < intMax
  retryBaseDelayMs : 0 ≤ number lines (bytes "retry") (bytes "base_delay_ms") 50
  retryMaxDelayMs : 0 ≤ number lines (bytes "retry") (bytes "max_delay_ms") 1000

theorem sane_iff (lines : List Line) :
    Sane lines ↔
      (∀ n ∈ [number lines (bytes "cache") (bytes "capacity") 1000,
          number lines (bytes "connection") (bytes "max_response_body_bytes") (10 * 1024 * 1024),
          number lines (bytes "connection") (bytes "max_idle_per_backend") 16,
          number lines (bytes "retry") (bytes "max_retries") 2,
          number lines (bytes "retry") (bytes "base_delay_ms") 50,
          number lines (bytes "retry") (bytes "max_delay_ms") 1000], 0 ≤ n) ∧
        number lines (bytes "retry") (bytes "max_retries") 2 < intMax := by
  simp only [List.forall_mem_cons]
  exact ⟨fun h => ⟨⟨h.1, h.2, h.3, h.4, h.6, h.7, by simp⟩, h.5⟩,
    fun h => ⟨h.1.1, h.1.2.1, h.1.2.2.1, h.1.2.2.2.1, h.2, h.1.2.2.2.2.1, h.1.2.2.2.2.2.1⟩⟩

instance (lines : List Line) : Decidable (Sane lines) := decidable_of_iff' _ (sane_iff lines)

theorem inInt_of_stoi {s : Bytes} {v : ℤ} (h : stoi s = some v) : InInt v := by
  simp only [stoi] at h
  split_ifs at h with hfits
  exact Option.some_inj.mp h ▸ hfits.2

theorem toInt_eq (s : Bytes) (default : ℤ) : toInt s default = (stoi s).getD default := by
  rw [toInt]
  split_ifs with hnil
  · rw [hnil]
    rfl
  · rfl

theorem inInt_toInt (s : Bytes) {default : ℤ} (h : InInt default) : InInt (toInt s default) := by
  rw [toInt_eq]
  cases hstoi : stoi s with
  | none => exact h
  | some v => exact inInt_of_stoi hstoi

theorem foldl_toInt (texts : List Bytes) (default : ℤ) :
    texts.foldl (fun v s => toInt s v) default = lastNumber default texts := by
  induction texts generalizing default with
  | nil => rfl
  | cons s texts ih =>
    rw [List.foldl_cons, ih, toInt_eq, lastNumber, lastNumber]
    cases hstoi : stoi s with
    | none => rw [List.filterMap_cons_none hstoi, Option.getD_none]
    | some v => rw [List.filterMap_cons_some hstoi, List.getLast?_cons, Option.getD_some, Option.getD_some]

theorem inInt_foldl_toInt (texts : List Bytes) {default : ℤ} (h : InInt default) :
    InInt (texts.foldl (fun v s => toInt s v) default) := by
  induction texts generalizing default with
  | nil => exact h
  | cons s texts ih => exact ih (inInt_toInt s h)

theorem inInt_number (lines : List Line) (name key : Bytes) {default : ℤ} (h : InInt default) :
    InInt (number lines name key default) := by
  rw [number, ← foldl_toInt]
  exact inInt_foldl_toInt _ h

/-- An `int` comes back from a `size_t`. -/
theorem longToInt_toSize {v : ℤ} (h : InInt v) : longToInt (toSize v) = v := by
  obtain ⟨hlow, hhigh⟩ := h
  rw [longToInt, toSize]
  omega

theorem toSize_le_intMax_iff {v : ℤ} (h : InInt v) : toSize v ≤ intMax ↔ 0 ≤ v := by
  obtain ⟨hlow, hhigh⟩ := h
  rw [toSize, intMax]
  omega

/-- So the default is the last number here as well. -/
theorem foldl_toSize (texts : List Bytes) {default : ℤ} (h : InInt default) :
    texts.foldl (fun n s => toSize (toInt s (longToInt n))) (toSize default)
      = toSize (lastNumber default texts) := by
  rw [← foldl_toInt]
  induction texts generalizing default with
  | nil => rfl
  | cons s texts ih =>
    rw [List.foldl_cons, List.foldl_cons, longToInt_toSize h]
    exact ih (inInt_toInt s h)

/-! ## Settings -/

section Settings

variable {δ : Type} {stod : Bytes → Option δ}

theorem readTopLevel_cfg (ctx : Context δ) (ln : Line) :
    ∃ workers metricsPort, (readTopLevel ctx ln).cfg
      = { ctx.cfg with workerThreads := workers, metricsPort := metricsPort } := by
  simp only [readTopLevel]
  split_ifs
  · exact ⟨_, ctx.cfg.metricsPort, rfl⟩
  · exact ⟨ctx.cfg.workerThreads, _, rfl⟩
  · exact ⟨ctx.cfg.workerThreads, ctx.cfg.metricsPort, rfl⟩

/-- The settings of their own are followed by no section. -/
theorem readTopLevel_sectionName (ctx : Context δ) (ln : Line) {name : Bytes} (hname : name ≠ [])
    (hworkers : name ≠ bytes "workers") (hmetrics : name ≠ bytes "metrics_port") :
    (readTopLevel ctx ln).sectionName = name ↔ (splitKv ln.content).1 = name := by
  simp only [readTopLevel]
  split_ifs with hkey hkey'
  · exact iff_of_false (Ne.symm hname) (hkey ▸ Ne.symm hworkers)
  · exact iff_of_false (Ne.symm hname) (hkey' ▸ Ne.symm hmetrics)
  · rfl

/-- Between two contexts, nothing but the lists has changed, and the place in them. -/
def OnlyLists (ctx ctx' : Context δ) : Prop :=
  (∃ groups routes, ctx'.cfg = ctx.cfg.withLists groups routes) ∧ ctx'.sectionName = ctx.sectionName

theorem onlyLists_refl (ctx : Context δ) : OnlyLists ctx ctx :=
  ⟨⟨ctx.cfg.backendGroups, ctx.cfg.routes, rfl⟩, rfl⟩

theorem onlyLists_setGroup (ctx : Context δ) (i : ℕ) (f : BackendGroupConfig → BackendGroupConfig) :
    OnlyLists ctx (ctx.setGroup i f) :=
  ⟨⟨_, ctx.cfg.routes, rfl⟩, rfl⟩

theorem onlyLists_setRoute (ctx : Context δ) (i : ℕ) (f : RouteConfig → RouteConfig) :
    OnlyLists ctx (ctx.setRoute i f) :=
  ⟨⟨ctx.cfg.backendGroups, _, rfl⟩, rfl⟩

theorem onlyLists_readGroupLine (ctx : Context δ) (ln : Line) : OnlyLists ctx (readGroupLine ctx ln) := by
  rw [readGroupLine]
  split
  · exact ⟨⟨_, ctx.cfg.routes, rfl⟩, rfl⟩
  · split
    · exact onlyLists_refl ctx
    · split
      · exact onlyLists_setGroup ctx _ _
      · rw [readGroupKey]
        split_ifs
        · exact onlyLists_setGroup ctx _ _
        · exact onlyLists_setGroup ctx _ _
        · exact onlyLists_refl ctx
        · exact onlyLists_setGroup ctx _ _
        · exact onlyLists_setGroup ctx _ _
        · exact onlyLists_refl ctx

theorem onlyLists_readRouteLine (ctx : Context δ) (ln : Line) : OnlyLists ctx (readRouteLine ctx ln) := by
  rw [readRouteLine]
  split
  · exact ⟨⟨ctx.cfg.backendGroups, _, rfl⟩, rfl⟩
  · split
    · exact onlyLists_refl ctx
    · rw [readRouteKey]
      split_ifs
      · exact onlyLists_setRoute ctx _ _
      · exact onlyLists_setRoute ctx _ _
      · exact onlyLists_setRoute ctx _ _
      · exact onlyLists_refl ctx

/-- An indented line is a setting of its section, or at most about the lists. -/
theorem readLine_indented (stod : Bytes → Option δ) (ctx : Context δ) {ln : Line}
    (hindent : ln.indent ≠ 0) :
    (∃ read, settings stod ctx.sectionName = some read ∧ readLine stod ctx ln
        = { ctx with cfg := read (splitKv ln.content).1 (splitKv ln.content).2 ctx.cfg }) ∨
      settings stod ctx.sectionName = none ∧ OnlyLists ctx (readLine stod ctx ln) := by
  rw [readLine, if_neg hindent]
  cases hread : settings stod ctx.sectionName with
  | some read => exact .inl ⟨read, rfl, rfl⟩
  | none =>
    refine .inr ⟨rfl, ?_⟩
    dsimp only
    split_ifs
    · exact onlyLists_readGroupLine ctx ln
    · exact onlyLists_readRouteLine ctx ln
    · exact onlyLists_refl ctx

/-- A setting of a section: `put` is what a text for its key makes of it, and nothing else changes it. -/
structure Setting (stod : Bytes → Option δ) (β : Type) where
  name : Bytes
  key : Bytes
  read : Bytes → Bytes → GatewayConfig δ → GatewayConfig δ
  get : GatewayConfig δ → β
  put : β → Bytes → β
  settings_name : settings stod name = some read
  get_read : ∀ k v cfg, get (read k v cfg) = if k = key then put (get cfg) v else get cfg
  get_other : ∀ {name' read'}, settings stod name' = some read' → name' ≠ name → ∀ k v cfg,
    get (read' k v cfg) = get cfg
  get_top : ∀ cfg workers metricsPort,
    get { cfg with workerThreads := workers, metricsPort := metricsPort } = get cfg
  get_withLists : ∀ cfg groups routes, get (cfg.withLists groups routes) = get cfg

theorem Setting.name_ne {β : Type} (s : Setting stod β) {name : Bytes} (h : settings stod name = none) :
    s.name ≠ name := by
  rintro rfl
  exact Option.some_ne_none _ (s.settings_name.symm.trans h)

/-- **A setting is made of the texts that are given for it.** -/
theorem Setting.get_readLines {β : Type} (s : Setting stod β) (lines : List Line) {ctx : Context δ}
    {current : Bytes} (hcurrent : ctx.sectionName = s.name ↔ current = s.name) :
    s.get (readLines stod ctx lines).cfg
      = (given s.name s.key current lines).foldl s.put (s.get ctx.cfg) := by
  induction lines generalizing ctx current with
  | nil => rfl
  | cons ln lines ih =>
    rw [readLines, List.foldl_cons, ← readLines, given]
    by_cases hindent : ln.indent = 0
    · rw [if_pos hindent]
      have htop : readLine stod ctx ln = readTopLevel ctx ln := by rw [readLine, if_pos hindent]
      obtain ⟨workers, metricsPort, hcfg⟩ := readTopLevel_cfg ctx ln
      have hnext := readTopLevel_sectionName ctx ln (s.name_ne rfl) (s.name_ne rfl) (s.name_ne rfl)
      rw [htop, ih hnext, hcfg, s.get_top]
    · rw [if_neg hindent]
      rcases readLine_indented stod ctx hindent with ⟨read, hread, hline⟩ | ⟨hnone, hlists, hname⟩
      · have hnext : (readLine stod ctx ln).sectionName = s.name ↔ current = s.name := by rwa [hline]
        rw [ih hnext, hline]
        by_cases hsection : current = s.name
        · obtain rfl : s.read = read :=
            Option.some_inj.mp (s.settings_name.symm.trans (hcurrent.mpr hsection ▸ hread))
          simp only [s.get_read, hsection, true_and]
          split_ifs
          · rfl
          · rfl
        · simp only [s.get_other hread (mt hcurrent.mp hsection), hsection, false_and, if_false]
      · obtain ⟨groups, routes, hcfg⟩ := hlists
        have hsection : current ≠ s.name := fun h => s.name_ne hnone (hcurrent.mpr h).symm
        rw [ih (hname ▸ hcurrent), hcfg, s.get_withLists, if_neg fun h => hsection h.1]

/-- A number is left alone in every section but one, and those at the margin in all of them. -/
structure Unchanged (name : Bytes) (cfg cfg' : GatewayConfig δ) : Prop where
  listen : name ≠ bytes "listen" → cfg'.listenPort = cfg.listenPort
  rateLimit : name ≠ bytes "rate_limit" → cfg'.rateLimitCapacity = cfg.rateLimitCapacity ∧
    cfg'.rateLimitRefillPerSecond = cfg.rateLimitRefillPerSecond
  cache : name ≠ bytes "cache" → cfg'.cacheCapacity = cfg.cacheCapacity
  retry : name ≠ bytes "retry" → cfg'.retryPolicy = cfg.retryPolicy
  connection : name ≠ bytes "connection" → (cfg'.maxResponseBodyBytes = cfg.maxResponseBodyBytes ∧
    cfg'.maxIdleConnsPerBackend = cfg.maxIdleConnsPerBackend) ∧
    cfg'.connectTimeoutMs = cfg.connectTimeoutMs ∧ cfg'.backendReadTimeoutMs = cfg.backendReadTimeoutMs
  margin : cfg'.workerThreads = cfg.workerThreads ∧ cfg'.metricsPort = cfg.metricsPort

theorem unchanged_settings {name : Bytes} {read : Bytes → Bytes → GatewayConfig δ → GatewayConfig δ}
    (hread : settings stod name = some read) (k v : Bytes) (cfg : GatewayConfig δ) :
    Unchanged name cfg (read k v cfg) := by
  refine settings_cases (motive := fun name read => Unchanged name cfg (read k v cfg))
    ?_ ?_ ?_ ?_ ?_ ?_ ?_ hread
  · rw [readListen]
    split_ifs
    all_goals exact ⟨fun hne => absurd rfl hne, fun _ => ⟨rfl, rfl⟩, fun _ => rfl, fun _ => rfl,
      fun _ => ⟨⟨rfl, rfl⟩, rfl, rfl⟩, rfl, rfl⟩
  · rw [readRateLimit]
    split_ifs
    all_goals exact ⟨fun _ => rfl, fun hne => absurd rfl hne, fun _ => rfl, fun _ => rfl,
      fun _ => ⟨⟨rfl, rfl⟩, rfl, rfl⟩, rfl, rfl⟩
  · rw [readCache]
    split_ifs
    all_goals exact ⟨fun _ => rfl, fun _ => ⟨rfl, rfl⟩, fun hne => absurd rfl hne, fun _ => rfl,
      fun _ => ⟨⟨rfl, rfl⟩, rfl, rfl⟩, rfl, rfl⟩
  · rw [readCircuitBreaker]
    split_ifs
    all_goals exact ⟨fun _ => rfl, fun _ => ⟨rfl, rfl⟩, fun _ => rfl, fun _ => rfl,
      fun _ => ⟨⟨rfl, rfl⟩, rfl, rfl⟩, rfl, rfl⟩
  · rw [readRetry]
    split_ifs
    all_goals exact ⟨fun _ => rfl, fun _ => ⟨rfl, rfl⟩, fun _ => rfl, fun hne => absurd rfl hne,
      fun _ => ⟨⟨rfl, rfl⟩, rfl, rfl⟩, rfl, rfl⟩
  · rw [readConnection]
    split_ifs
    all_goals exact ⟨fun _ => rfl, fun _ => ⟨rfl, rfl⟩, fun _ => rfl, fun _ => rfl, fun hne => absurd rfl hne, rfl, rfl⟩
  · rw [readHealthCheck]
    split_ifs
    all_goals exact ⟨fun _ => rfl, fun _ => ⟨rfl, rfl⟩, fun _ => rfl, fun _ => rfl,
      fun _ => ⟨⟨rfl, rfl⟩, rfl, rfl⟩, rfl, rfl⟩

/-! ## The settings that are not validated -/

/-- A limit is read as an `int`, and kept in a `size_t`. -/
def putSize (n : ℕ) (v : Bytes) : ℕ := toSize (toInt v (longToInt n))

theorem readCache_cacheCapacity (k v : Bytes) (cfg : GatewayConfig δ) :
    (readCache k v cfg).cacheCapacity
      = if k = bytes "capacity" then putSize cfg.cacheCapacity v else cfg.cacheCapacity := by
  rw [readCache]
  split_ifs
  all_goals rfl

theorem readConnection_maxResponseBodyBytes (k v : Bytes) (cfg : GatewayConfig δ) :
    (readConnection k v cfg).maxResponseBodyBytes
      = if k = bytes "max_response_body_bytes" then putSize cfg.maxResponseBodyBytes v
        else cfg.maxResponseBodyBytes := by
  by_cases hk : k = bytes "max_response_body_bytes"
  · subst hk
    rfl
  · simp only [readConnection, hk, if_false]
    split_ifs
    all_goals rfl

theorem readConnection_maxIdleConnsPerBackend (k v : Bytes) (cfg : GatewayConfig δ) :
    (readConnection k v cfg).maxIdleConnsPerBackend
      = if k = bytes "max_idle_per_backend" then putSize cfg.maxIdleConnsPerBackend v
        else cfg.maxIdleConnsPerBackend := by
  by_cases hk : k = bytes "max_idle_per_backend"
  · subst hk
    rfl
  · simp only [readConnection, hk, if_false]
    split_ifs
    all_goals rfl

theorem readRetry_maxRetries (k v : Bytes) (cfg : GatewayConfig δ) :
    (readRetry k v cfg).retryPolicy.maxRetries
      = if k = bytes "max_retries" then toInt v cfg.retryPolicy.maxRetries
        else cfg.retryPolicy.maxRetries := by
  rw [readRetry]
  split_ifs
  all_goals rfl

theorem readRetry_baseDelay (k v : Bytes) (cfg : GatewayConfig δ) :
    (readRetry k v cfg).retryPolicy.baseDelay
      = if k = bytes "base_delay_ms" then toInt v cfg.retryPolicy.baseDelay
        else cfg.retryPolicy.baseDelay := by
  by_cases hk : k = bytes "base_delay_ms"
  · subst hk
    rfl
  · simp only [readRetry, hk, if_false]
    split_ifs
    all_goals rfl

theorem readRetry_maxDelay (k v : Bytes) (cfg : GatewayConfig δ) :
    (readRetry k v cfg).retryPolicy.maxDelay
      = if k = bytes "max_delay_ms" then toInt v cfg.retryPolicy.maxDelay
        else cfg.retryPolicy.maxDelay := by
  by_cases hk : k = bytes "max_delay_ms"
  · subst hk
    rfl
  · simp only [readRetry, hk, if_false]
    split_ifs
    all_goals rfl

section Instances

variable (stod)

theorem settings_connection : settings stod (bytes "connection") = some readConnection := rfl

def cacheCapacity : Setting stod ℕ where
  name := bytes "cache"
  key := bytes "capacity"
  read := readCache
  get := GatewayConfig.cacheCapacity
  put := putSize
  settings_name := rfl
  get_read := readCache_cacheCapacity
  get_other hread hname k v cfg := (unchanged_settings hread k v cfg).cache hname
  get_top _ _ _ := rfl
  get_withLists _ _ _ := rfl

def maxResponseBodyBytes : Setting stod ℕ where
  name := bytes "connection"
  key := bytes "max_response_body_bytes"
  read := readConnection
  get := GatewayConfig.maxResponseBodyBytes
  put := putSize
  settings_name := settings_connection stod
  get_read := readConnection_maxResponseBodyBytes
  get_other hread hname k v cfg := ((unchanged_settings hread k v cfg).connection hname).1.1
  get_top _ _ _ := rfl
  get_withLists _ _ _ := rfl

def maxIdleConnsPerBackend : Setting stod ℕ where
  name := bytes "connection"
  key := bytes "max_idle_per_backend"
  read := readConnection
  get := GatewayConfig.maxIdleConnsPerBackend
  put := putSize
  settings_name := settings_connection stod
  get_read := readConnection_maxIdleConnsPerBackend
  get_other hread hname k v cfg := ((unchanged_settings hread k v cfg).connection hname).1.2
  get_top _ _ _ := rfl
  get_withLists _ _ _ := rfl

/-- A number of the retry policy. -/
def retrySetting (key : Bytes) (get : RetryPolicy → ℤ)
    (get_read : ∀ k v (cfg : GatewayConfig δ), get (readRetry k v cfg).retryPolicy
      = if k = key then toInt v (get cfg.retryPolicy) else get cfg.retryPolicy) : Setting stod ℤ where
  name := bytes "retry"
  key := key
  read := readRetry
  get cfg := get cfg.retryPolicy
  put n v := toInt v n
  settings_name := rfl
  get_read := get_read
  get_other hread hname k v cfg := congrArg get ((unchanged_settings hread k v cfg).retry hname)
  get_top _ _ _ := rfl
  get_withLists _ _ _ := rfl

end Instances

/-! ## Accepted files -/

variable [NatCast δ]

/-- The configuration before the first line. -/
def initial : GatewayConfig δ := { rateLimitRefillPerSecond := (50 : ℕ) }

/-- The configuration of a file, before its validation. -/
def readConfig (stod : Bytes → Option δ) (text : Bytes) : GatewayConfig δ :=
  (readLines stod { cfg := initial } (tokenize text)).cfg

/-- A number is the last one of the lines. -/
theorem Setting.get_number (s : Setting stod ℤ) (hput : s.put = fun n v => toInt v n) (lines : List Line) :
    s.get (readLines stod { cfg := initial } lines).cfg = number lines s.name s.key (s.get initial) := by
  rw [s.get_readLines lines Iff.rfl, hput]
  exact foldl_toInt _ _

/-- A limit is what becomes of that number in a `size_t`. -/
theorem Setting.get_size (s : Setting stod ℕ) (hput : s.put = putSize) {default : ℤ} (hdefault : InInt default)
    (hinitial : s.get initial = toSize default) (lines : List Line) :
    s.get (readLines stod { cfg := initial } lines).cfg = toSize (number lines s.name s.key default) := by
  rw [s.get_readLines lines Iff.rfl, hput, hinitial]
  exact foldl_toSize _ hdefault

/-- It fits into an `int` if it is not negative. -/
theorem Setting.get_size_le_iff (s : Setting stod ℕ) (hput : s.put = putSize) {default : ℤ}
    (hdefault : InInt default) (hinitial : s.get initial = toSize default) (lines : List Line) :
    s.get (readLines stod { cfg := initial } lines).cfg ≤ intMax ↔ 0 ≤ number lines s.name s.key default := by
  rw [s.get_size hput hdefault hinitial, toSize_le_intMax_iff (inInt_number lines _ _ hdefault)]

theorem attempts_iff {p : RetryPolicy} (h : InInt p.maxRetries) :
    InInt p.attempts ∧ 1 ≤ p.attempts ↔ 0 ≤ p.maxRetries ∧ p.maxRetries < intMax := by
  obtain ⟨hlow, hhigh⟩ := h
  simp only [RetryPolicy.attempts, InInt, intMax]
  omega

theorem backoff_nonneg {p : RetryPolicy} (hbase : 0 ≤ p.baseDelay) (hmax : 0 ≤ p.maxDelay) (attempt : ℕ) :
    0 ≤ p.backoff attempt :=
  le_min hmax (Int.mul_nonneg hbase (Int.pow_nonneg (by decide)))

theorem safe_readConfig_iff (stod : Bytes → Option δ) (text : Bytes) :
    Safe (readConfig stod text) ↔ Sane (tokenize text) := by
  have hcapacity : (readConfig stod text).cacheCapacity ≤ intMax
      ↔ 0 ≤ number (tokenize text) (bytes "cache") (bytes "capacity") 1000 :=
    (cacheCapacity stod).get_size_le_iff rfl (by decide) rfl (tokenize text)
  have hbody : (readConfig stod text).maxResponseBodyBytes ≤ intMax
      ↔ 0 ≤ number (tokenize text) (bytes "connection") (bytes "max_response_body_bytes") (10 * 1024 * 1024) :=
    (maxResponseBodyBytes stod).get_size_le_iff rfl (by decide) rfl (tokenize text)
  have hidle : (readConfig stod text).maxIdleConnsPerBackend ≤ intMax
      ↔ 0 ≤ number (tokenize text) (bytes "connection") (bytes "max_idle_per_backend") 16 :=
    (maxIdleConnsPerBackend stod).get_size_le_iff rfl (by decide) rfl (tokenize text)
  have hretries : (readConfig stod text).retryPolicy.maxRetries
      = number (tokenize text) (bytes "retry") (bytes "max_retries") 2 :=
    (retrySetting stod _ _ readRetry_maxRetries).get_number rfl (tokenize text)
  have hbase : (readConfig stod text).retryPolicy.baseDelay
      = number (tokenize text) (bytes "retry") (bytes "base_delay_ms") 50 :=
    (retrySetting stod _ _ readRetry_baseDelay).get_number rfl (tokenize text)
  have hmax : (readConfig stod text).retryPolicy.maxDelay
      = number (tokenize text) (bytes "retry") (bytes "max_delay_ms") 1000 :=
    (retrySetting stod _ _ readRetry_maxDelay).get_number rfl (tokenize text)
  have hattempts := attempts_iff (hretries ▸ inInt_number (tokenize text) _ _ (by decide))
  rw [hretries] at hattempts
  constructor
  · intro h
    obtain ⟨hmin, hlt⟩ := hattempts.mp ⟨h.no_overflow, h.some_attempt⟩
    exact ⟨hcapacity.mp h.cacheCapacity, hbody.mp h.maxResponseBodyBytes,
      hidle.mp h.maxIdleConnsPerBackend, hmin, hlt, hbase ▸ h.baseDelay, hmax ▸ h.maxDelay⟩
  · intro h
    obtain ⟨hfits, hone⟩ := hattempts.mpr ⟨h.retryMax, h.retryMax_lt⟩
    have hbase' : 0 ≤ (readConfig stod text).retryPolicy.baseDelay := hbase ▸ h.retryBaseDelayMs
    have hmax' : 0 ≤ (readConfig stod text).retryPolicy.maxDelay := hmax ▸ h.retryMaxDelayMs
    exact ⟨hcapacity.mpr h.cacheCapacity, hbody.mpr h.maxResponseBodyBytes,
      hidle.mpr h.maxIdleConnsPerBackend, hfits, hone, hbase', hmax', backoff_nonneg hbase' hmax'⟩

/-- **When an accepted configuration is safe.** -/
theorem accepted_safe_iff [LE δ] [DecidableLE δ] (stod : Bytes → Option δ) {path text : Bytes}
    {cfg : GatewayConfig δ} (h : loadFromFile stod path (some text) = .ok cfg) : Safe cfg ↔ Sane (tokenize text) := by
  have hchecked : checked (readConfig stod text) = .ok cfg := h
  obtain ⟨-, rfl⟩ := checked_eq_ok_iff.mp hchecked
  exact safe_readConfig_iff stod text

end Settings

/-- Lines with one group and one route behind them. -/
def linesBehind (lines : List Line) : List Line :=
  lines ++ (oneGroup nameFirst groupBeforeCacheable).flatMap Section.lines

theorem tokenize_linesBehind {lines : List Line} (h : ∀ ln ∈ lines, Plain ln.content) :
    tokenize (plainText (linesBehind lines)) = linesBehind lines := by
  refine tokenize_of_renders (renders_plainText _) ?_
  rw [linesBehind, List.forall_mem_append, List.forall_mem_flatMap]
  exact ⟨h, fun s _ => s.plain_lines⟩

theorem load_linesBehind {lines : List Line} (h : ∀ ln ∈ lines, Plain ln.content) :
    loadFromFile stoi [] (some (plainText (linesBehind lines)))
      = checked (readLines stoi { cfg := initial } (linesBehind lines)).cfg := by
  have hload : loadFromFile stoi [] (some (plainText (linesBehind lines)))
      = checked (readConfig stoi (plainText (linesBehind lines))) := rfl
  rw [hload, readConfig, tokenize_linesBehind h]

/-- Nothing is retried, and no cache is kept. -/
def withoutRetries : List Line :=
  settingLines (bytes "cache") [(bytes "capacity", bytes "0")] ++
    settingLines (bytes "retry") [(bytes "max_retries", bytes "0")]

theorem accepted_safe_withoutRetries :
    ∃ cfg, loadFromFile stoi [] (some (plainText (linesBehind withoutRetries))) = .ok cfg ∧
      cfg.cacheCapacity = 0 ∧ Safe cfg := by
  have hplain : ∀ ln ∈ withoutRetries, Plain ln.content := by
    rw [withoutRetries, List.forall_mem_append]
    exact ⟨plain_settingLines (by decide) (by decide), plain_settingLines (by decide) (by decide)⟩
  have hload := (load_linesBehind hplain).trans (checked_eq_ok_iff.mpr ⟨rfl, rfl⟩)
  refine ⟨_, hload, rfl, (accepted_safe_iff stoi hload).mpr ?_⟩
  rw [tokenize_linesBehind hplain]
  decide

/-- A cache of negative size, as many retries as there can be, and a negative delay. -/
def outOfRange : List Line :=
  settingLines (bytes "cache") [(bytes "capacity", bytes "-1")] ++
    settingLines (bytes "retry")
      [(bytes "max_retries", bytes "2147483647"), (bytes "base_delay_ms", bytes "-50")]

/-- The file is accepted. The cache is unbounded, the number of attempts overflows, and the first delay is
drawn from the interval from 0 to -50. -/
theorem outOfRange_accepted :
    ∃ cfg, loadFromFile stoi [] (some (plainText (linesBehind outOfRange))) = .ok cfg ∧
      cfg.cacheCapacity = 2 ^ 64 - 1 ∧ ¬ InInt cfg.retryPolicy.attempts ∧
      cfg.retryPolicy.backoff 0 = -50 ∧ ¬ Safe cfg := by
  have hplain : ∀ ln ∈ outOfRange, Plain ln.content := by
    rw [outOfRange, List.forall_mem_append]
    exact ⟨plain_settingLines (by decide) (by decide), plain_settingLines (by decide) (by decide)⟩
  have hcapacity : (readLines stoi { cfg := initial } (linesBehind outOfRange)).cfg.cacheCapacity
      = 2 ^ 64 - 1 := by decide
  have hretry : (readLines stoi { cfg := initial } (linesBehind outOfRange)).cfg.retryPolicy
      = ⟨2147483647, -50, 1000⟩ := by decide
  refine ⟨_, (load_linesBehind hplain).trans (checked_eq_ok_iff.mpr ⟨rfl, rfl⟩), hcapacity, ?_, ?_, ?_⟩
  · rw [hretry]
    decide
  · rw [hretry]
    decide
  · intro h
    exact absurd (hcapacity ▸ h.cacheCapacity) (by decide)

end ApiGateway.Config
