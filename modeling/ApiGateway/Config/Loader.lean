import ApiGateway.Common.Lines
import ApiGateway.Http.Message

/-!
# Loading the configuration

`GatewayConfig::loadFromFile` reads a small subset of YAML line by line. A line is cut off at its comment
and trimmed, and what it means depends on its indentation and on what the lines before it have left behind:
the section, the group and the route that are being filled in, and whether the group's backends are being
listed (`Context`).

Doubles are a type with an order and a `stod`; nothing else is asked of them. An indentation is an `int` in
the source, and a natural number here.

Reference: `src/config/Config.cpp`, `include/config/Config.hpp`.
-/

namespace ApiGateway.Config

open Str Http

/-! ## Settings -/

structure BackendConfig where
  host : Bytes := []
  port : ℤ := 0
deriving DecidableEq, Repr

structure RouteConfig where
  pathPrefix : Bytes := []
  backendGroup : Bytes := []
  cacheable : Bool := false
deriving DecidableEq, Repr

structure BackendGroupConfig where
  name : Bytes := []
  strategy : Bytes := bytes "round_robin"
  backends : List BackendConfig := []
deriving DecidableEq, Repr

/-- `double` is `δ`; `size_t` is `ℕ`, and `int` is `ℤ`. -/
structure GatewayConfig (δ : Type) where
  listenHost : Bytes := bytes "0.0.0.0"
  listenPort : ℤ := 8080
  workerThreads : ℤ := 4
  rateLimitCapacity : ℤ := 100
  rateLimitRefillPerSecond : δ
  cacheCapacity : ℕ := 1000
  cacheTtlMs : ℤ := 5000
  circuitFailureThreshold : ℤ := 5
  circuitResetTimeoutMs : ℤ := 10000
  retryMax : ℤ := 2
  retryBaseDelayMs : ℤ := 50
  retryMaxDelayMs : ℤ := 1000
  connectTimeoutMs : ℤ := 1000
  backendReadTimeoutMs : ℤ := 3000
  maxResponseBodyBytes : ℕ := 10 * 1024 * 1024
  maxIdleConnsPerBackend : ℕ := 16
  healthCheckIntervalMs : ℤ := 5000
  healthCheckTimeoutMs : ℤ := 1000
  healthCheckPath : Bytes := bytes "/health"
  backendGroups : List BackendGroupConfig := []
  routes : List RouteConfig := []
  metricsPort : ℤ := 9090
deriving DecidableEq, Repr

/-! ## Lines -/

def hash : UInt8 := 35

/-- What `trim` takes away: `" \t\r"`. -/
def blank : List UInt8 := [sp, tab, cr]

structure Line where
  indent : ℕ
  content : Bytes
deriving DecidableEq, Repr

def trim (s : Bytes) : Bytes :=
  match s.findIdx? (· ∉ blank) with
  | none => []
  | some a =>
    -- `npos` does not occur here: there is a byte that is no blank
    let b := (findLastIdx? (· ∉ blank) s).getD (2 ^ 64 - 1)
    substr s a (sizeSub b a + 1)

def stripComment (s : Bytes) : Bytes :=
  match s.findIdx? (· = hash) with
  | none => s
  | some h => substr s 0 h

/-- The line that is kept of a line of the file, if any. -/
def toLine (raw : Bytes) : Option Line :=
  let noComment := stripComment raw
  let indent := (noComment.takeWhile (· = sp)).length
  let content := trim noComment
  if content = [] then none else some ⟨indent, content⟩

def tokenize (text : Bytes) : List Line := (getlines lf text).filterMap toLine

def splitKv (s : Bytes) : Bytes × Bytes :=
  match s.findIdx? (· = colon) with
  | none => (trim s, [])
  | some i => (trim (substr s 0 i), trim (s.drop (i + 1)))

/-- The default stands for an empty value, and for every exception of `stoi`. -/
def toInt (s : Bytes) (default : ℤ) : ℤ := if s = [] then default else (stoi s).getD default

/-- `static_cast<size_t>` of an `int`. -/
def toSize (v : ℤ) : ℕ := (v % 2 ^ 64).toNat

section Loader

variable {δ : Type} (stod : Bytes → Option δ)

def toDouble (s : Bytes) (default : δ) : δ := if s = [] then default else (stod s).getD default

/-! ## Sections of settings -/

def readListen (key val : Bytes) (cfg : GatewayConfig δ) : GatewayConfig δ :=
  if key = bytes "host" then { cfg with listenHost := val }
  else if key = bytes "port" then { cfg with listenPort := toInt val cfg.listenPort }
  else cfg

def readRateLimit (key val : Bytes) (cfg : GatewayConfig δ) : GatewayConfig δ :=
  if key = bytes "capacity" then { cfg with rateLimitCapacity := toInt val cfg.rateLimitCapacity }
  else if key = bytes "refill_per_second" then
    { cfg with rateLimitRefillPerSecond := toDouble stod val cfg.rateLimitRefillPerSecond }
  else cfg

def readCache (key val : Bytes) (cfg : GatewayConfig δ) : GatewayConfig δ :=
  if key = bytes "capacity" then
    { cfg with cacheCapacity := toSize (toInt val (longToInt cfg.cacheCapacity)) }
  else if key = bytes "ttl_ms" then { cfg with cacheTtlMs := toInt val cfg.cacheTtlMs }
  else cfg

def readCircuitBreaker (key val : Bytes) (cfg : GatewayConfig δ) : GatewayConfig δ :=
  if key = bytes "failure_threshold" then
    { cfg with circuitFailureThreshold := toInt val cfg.circuitFailureThreshold }
  else if key = bytes "reset_timeout_ms" then
    { cfg with circuitResetTimeoutMs := toInt val cfg.circuitResetTimeoutMs }
  else cfg

def readRetry (key val : Bytes) (cfg : GatewayConfig δ) : GatewayConfig δ :=
  if key = bytes "max_retries" then { cfg with retryMax := toInt val cfg.retryMax }
  else if key = bytes "base_delay_ms" then
    { cfg with retryBaseDelayMs := toInt val cfg.retryBaseDelayMs }
  else if key = bytes "max_delay_ms" then { cfg with retryMaxDelayMs := toInt val cfg.retryMaxDelayMs }
  else cfg

def readConnection (key val : Bytes) (cfg : GatewayConfig δ) : GatewayConfig δ :=
  if key = bytes "connect_timeout_ms" then
    { cfg with connectTimeoutMs := toInt val cfg.connectTimeoutMs }
  else if key = bytes "backend_read_timeout_ms" then
    { cfg with backendReadTimeoutMs := toInt val cfg.backendReadTimeoutMs }
  else if key = bytes "max_response_body_bytes" then
    { cfg with maxResponseBodyBytes := toSize (toInt val (longToInt cfg.maxResponseBodyBytes)) }
  else if key = bytes "max_idle_per_backend" then
    { cfg with maxIdleConnsPerBackend := toSize (toInt val (longToInt cfg.maxIdleConnsPerBackend)) }
  else cfg

def readHealthCheck (key val : Bytes) (cfg : GatewayConfig δ) : GatewayConfig δ :=
  if key = bytes "interval_ms" then
    { cfg with healthCheckIntervalMs := toInt val cfg.healthCheckIntervalMs }
  else if key = bytes "timeout_ms" then
    { cfg with healthCheckTimeoutMs := toInt val cfg.healthCheckTimeoutMs }
  else if key = bytes "path" then { cfg with healthCheckPath := val }
  else cfg

/-- What a line of a section does that has only keys and values. -/
def settings (name : Bytes) : Option (Bytes → Bytes → GatewayConfig δ → GatewayConfig δ) :=
  if name = bytes "listen" then some readListen
  else if name = bytes "rate_limit" then some (readRateLimit stod)
  else if name = bytes "cache" then some readCache
  else if name = bytes "circuit_breaker" then some readCircuitBreaker
  else if name = bytes "retry" then some readRetry
  else if name = bytes "connection" then some readConnection
  else if name = bytes "health_check" then some readHealthCheck
  else none

/-! ## The loop -/

/-- What is carried from line to line. A group or route is pointed to by its position; `-1` is no
indentation. -/
structure Context (δ : Type) where
  cfg : GatewayConfig δ
  sectionName : Bytes := []
  curGroup : Option ℕ := none
  curRoute : Option ℕ := none
  inBackendsList : Bool := false
  groupIndent : ℤ := -1
  routeListIndent : ℤ := -1
deriving DecidableEq, Repr

/-- A line without indentation: a setting of its own, or the name of a section. -/
def readTopLevel (ctx : Context δ) (ln : Line) : Context δ :=
  let cfg := ctx.cfg
  let kv := splitKv ln.content
  if kv.1 = bytes "workers" then
    { cfg := { cfg with workerThreads := toInt kv.2 cfg.workerThreads } }
  else if kv.1 = bytes "metrics_port" then
    { cfg := { cfg with metricsPort := toInt kv.2 cfg.metricsPort } }
  else { cfg, sectionName := kv.1 }

/-- `content.rfind("- ", 0) == 0`. -/
def isListItem (ln : Line) : Bool := (bytes "- ").isPrefixOf ln.content

/-- Change `*curGroup`. -/
def Context.setGroup (ctx : Context δ) (i : ℕ) (f : BackendGroupConfig → BackendGroupConfig) : Context δ :=
  { ctx with cfg := { ctx.cfg with backendGroups := ctx.cfg.backendGroups.modify i f } }

/-- Change `curGroup->backends.back()`, if there is one. -/
def BackendGroupConfig.setBack (f : BackendConfig → BackendConfig) (group : BackendGroupConfig) :
    BackendGroupConfig :=
  { group with backends := group.backends.modify (group.backends.length - 1) f }

/-- `- ` at the indentation of the groups. -/
def newGroup (ctx : Context δ) (indent : ℕ) (kv : Bytes × Bytes) : Context δ :=
  let group : BackendGroupConfig := if kv.1 = bytes "name" then { name := kv.2 } else {}
  { ctx with
    groupIndent := indent
    cfg := { ctx.cfg with backendGroups := ctx.cfg.backendGroups ++ [group] }
    curGroup := some ctx.cfg.backendGroups.length
    inBackendsList := false }

/-- `- ` farther in, while the backends are listed. -/
def newBackend (kv : Bytes × Bytes) (group : BackendGroupConfig) : BackendGroupConfig :=
  let backend : BackendConfig := if kv.1 = bytes "host" then { host := kv.2 } else {}
  { group with backends := group.backends ++ [backend] }

/-- Another line of a group. -/
def readGroupKey (ctx : Context δ) (i : ℕ) (kv : Bytes × Bytes) : Context δ :=
  if kv.1 = bytes "name" then ctx.setGroup i fun group => { group with name := kv.2 }
  else if kv.1 = bytes "strategy" then ctx.setGroup i fun group => { group with strategy := kv.2 }
  else if kv.1 = bytes "backends" then { ctx with inBackendsList := true }
  else if ctx.inBackendsList && kv.1 = bytes "host" then
    ctx.setGroup i (BackendGroupConfig.setBack fun backend => { backend with host := kv.2 })
  else if ctx.inBackendsList && kv.1 = bytes "port" then
    ctx.setGroup i (BackendGroupConfig.setBack fun backend => { backend with port := toInt kv.2 0 })
  else ctx

/-- A line of the section `backend_groups`. -/
def readGroupLine (ctx : Context δ) (ln : Line) : Context δ :=
  if isListItem ln && (ctx.groupIndent = -1 || ln.indent = ctx.groupIndent) then
    newGroup ctx ln.indent (splitKv (ln.content.drop 2))
  else
    match ctx.curGroup with
    | none => ctx
    | some i =>
      if isListItem ln && ctx.inBackendsList && ctx.groupIndent < ln.indent then
        ctx.setGroup i (newBackend (splitKv (ln.content.drop 2)))
      else readGroupKey ctx i (splitKv ln.content)

/-- Change `*curRoute`. -/
def Context.setRoute (ctx : Context δ) (i : ℕ) (f : RouteConfig → RouteConfig) : Context δ :=
  { ctx with cfg := { ctx.cfg with routes := ctx.cfg.routes.modify i f } }

/-- `- ` at the indentation of the routes. -/
def newRoute (ctx : Context δ) (indent : ℕ) (kv : Bytes × Bytes) : Context δ :=
  let route : RouteConfig := if kv.1 = bytes "path_prefix" then { pathPrefix := kv.2 } else {}
  { ctx with
    routeListIndent := indent
    cfg := { ctx.cfg with routes := ctx.cfg.routes ++ [route] }
    curRoute := some ctx.cfg.routes.length }

/-- Another line of a route. -/
def readRouteKey (ctx : Context δ) (i : ℕ) (kv : Bytes × Bytes) : Context δ :=
  if kv.1 = bytes "path_prefix" then ctx.setRoute i fun route => { route with pathPrefix := kv.2 }
  else if kv.1 = bytes "backend_group" then
    ctx.setRoute i fun route => { route with backendGroup := kv.2 }
  else if kv.1 = bytes "cacheable" then
    ctx.setRoute i fun route => { route with cacheable := kv.2 = bytes "true" }
  else ctx

/-- A line of the section `routes`. -/
def readRouteLine (ctx : Context δ) (ln : Line) : Context δ :=
  if isListItem ln && (ctx.routeListIndent = -1 || ln.indent ≤ ctx.routeListIndent) then
    newRoute ctx ln.indent (splitKv (ln.content.drop 2))
  else
    match ctx.curRoute with
    | none => ctx
    | some i => readRouteKey ctx i (splitKv ln.content)

def readLine (ctx : Context δ) (ln : Line) : Context δ :=
  if ln.indent = 0 then readTopLevel ctx ln
  else
    match settings stod ctx.sectionName with
    | some read =>
      let kv := splitKv ln.content
      { ctx with cfg := read kv.1 kv.2 ctx.cfg }
    | none =>
      if ctx.sectionName = bytes "backend_groups" then readGroupLine ctx ln
      else if ctx.sectionName = bytes "routes" then readRouteLine ctx ln
      else ctx

def readLines (ctx : Context δ) (lines : List Line) : Context δ := lines.foldl (readLine stod) ctx

/-! ## Validation -/

def validateBackend (backend : BackendConfig) : Except Bytes Unit :=
  if backend.host = [] || backend.port ≤ 0 || backend.port > 65535 then
    throw (bytes "invalid backend address")
  else pure ()

def validateGroup (group : BackendGroupConfig) : Except Bytes Unit :=
  if group.name = [] || group.backends = [] ||
      (group.strategy ≠ bytes "round_robin" && group.strategy ≠ bytes "least_connections") then
    throw (bytes "invalid backend group configuration")
  else group.backends.forM validateBackend

def validateRoute (route : RouteConfig) : Except Bytes Unit :=
  if route.pathPrefix = [] || route.pathPrefix.head? ≠ some slash || route.backendGroup = [] then
    throw (bytes "invalid route configuration")
  else pure ()

variable [NatCast δ] [LE δ] [DecidableLE δ]

def validate (cfg : GatewayConfig δ) : Except Bytes Unit := do
  if cfg.listenPort ≤ 0 || cfg.listenPort > 65535 || cfg.metricsPort ≤ 0 || cfg.metricsPort > 65535 ||
      cfg.workerThreads ≤ 0 || cfg.rateLimitCapacity ≤ 0 || cfg.rateLimitRefillPerSecond ≤ (0 : ℕ) ||
      cfg.maxResponseBodyBytes = 0 || cfg.backendReadTimeoutMs ≤ 0 || cfg.connectTimeoutMs ≤ 0 then
    throw (bytes "invalid gateway configuration values")
  if cfg.listenPort = cfg.metricsPort then throw (bytes "listen and metrics ports must differ")
  if cfg.backendGroups = [] || cfg.routes = [] then
    throw (bytes "at least one backend group and route are required")
  cfg.backendGroups.forM validateGroup
  cfg.routes.forM validateRoute

/-- `GatewayConfig::loadFromFile`. The file is the text at the path, if it can be opened. -/
def loadFromFile (path : Bytes) (file : Option Bytes) : Except Bytes (GatewayConfig δ) :=
  match file with
  | none => throw (bytes "failed to open config file: " ++ path)
  | some text => do
    let cfg := (readLines stod { cfg := { rateLimitRefillPerSecond := (50 : ℕ) } } (tokenize text)).cfg
    validate cfg
    return cfg

end Loader

end ApiGateway.Config
