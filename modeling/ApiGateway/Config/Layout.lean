import ApiGateway.Config.Text

/-!
# The layout of the configuration file

A configuration is written as in `config/gateway.yaml`: one block for each section and for each setting on
the top level, the blocks in any order, with trailing blanks, comments and empty lines wherever one likes.
`loadFromFile` reads it back.

The loop sees the lines of the blocks, without comments and blanks (`tokenize_of_renders`). Each block
starts at indentation zero, where everything that the lines before have left behind is forgotten, and so
has the same effect wherever it stands (`readLines_block`). The effects commute (`Block.assign_comm`), and
in one order they give the configuration back.

Reference: `GatewayConfig::loadFromFile` in `src/config/Config.cpp`, `config/gateway.yaml`.
-/

namespace ApiGateway.Config

open Str Http

/-! ## Blocks -/

/-- `key: value` -/
def entry (indent : ℕ) (key value : Bytes) : Line := ⟨indent, key ++ colon :: sp :: value⟩

/-- `key:` -/
def header (indent : ℕ) (key : Bytes) : Line := ⟨indent, key ++ [colon]⟩

/-- `- key: value` -/
def item (indent : ℕ) (key value : Bytes) : Line := ⟨indent, bytes "- " ++ (key ++ colon :: sp :: value)⟩

@[simp] theorem entry_indent (indent : ℕ) (key value : Bytes) : (entry indent key value).indent = indent :=
  rfl

@[simp] theorem header_indent (indent : ℕ) (key : Bytes) : (header indent key).indent = indent := rfl

theorem splitKv_content_entry (indent : ℕ) {key value : Bytes} (hkey : Key key) (hvalue : Plain value) :
    splitKv (entry indent key value).content = (key, value) :=
  splitKv_entry hkey hvalue

/-- What is written on the top level. -/
inductive Block where
  | listen | workers | metricsPort | rateLimit | cache | circuitBreaker | retry | connection | healthCheck
  | backendGroups | routes
deriving DecidableEq, Repr

def Block.all : List Block :=
  [.listen, .workers, .metricsPort, .rateLimit, .cache, .circuitBreaker, .retry, .connection,
    .healthCheck, .backendGroups, .routes]

/-- A section of settings. -/
def settingLines (name : Bytes) (kvs : List (Bytes × Bytes)) : List Line :=
  header 0 name :: kvs.map fun kv => entry 2 kv.1 kv.2

def backendLines (backend : BackendConfig) : List Line :=
  [item 6 (bytes "host") backend.host, entry 8 (bytes "port") (decimalInt backend.port)]

def groupLines (group : BackendGroupConfig) : List Line :=
  item 2 (bytes "name") group.name :: entry 4 (bytes "strategy") group.strategy ::
    header 4 (bytes "backends") :: group.backends.flatMap backendLines

def routeLines (route : RouteConfig) : List Line :=
  [item 2 (bytes "path_prefix") route.pathPrefix,
    entry 4 (bytes "backend_group") route.backendGroup,
    entry 4 (bytes "cacheable") (if route.cacheable then bytes "true" else bytes "false")]

section Blocks

variable {δ : Type}

/-- The settings in a block; `refill` is how the refill rate is written. -/
def Block.keys (cfg : GatewayConfig δ) (refill : Bytes) : Block → List (Bytes × Bytes)
  | .listen => [(bytes "host", cfg.listenHost), (bytes "port", decimalInt cfg.listenPort)]
  | .workers => [(bytes "workers", decimalInt cfg.workerThreads)]
  | .metricsPort => [(bytes "metrics_port", decimalInt cfg.metricsPort)]
  | .rateLimit =>
    [(bytes "capacity", decimalInt cfg.rateLimitCapacity), (bytes "refill_per_second", refill)]
  | .cache =>
    [(bytes "capacity", decimalInt cfg.cacheCapacity), (bytes "ttl_ms", decimalInt cfg.cacheTtlMs)]
  | .circuitBreaker =>
    [(bytes "failure_threshold", decimalInt cfg.circuitFailureThreshold),
      (bytes "reset_timeout_ms", decimalInt cfg.circuitResetTimeoutMs)]
  | .retry =>
    [(bytes "max_retries", decimalInt cfg.retryMax),
      (bytes "base_delay_ms", decimalInt cfg.retryBaseDelayMs),
      (bytes "max_delay_ms", decimalInt cfg.retryMaxDelayMs)]
  | .connection =>
    [(bytes "connect_timeout_ms", decimalInt cfg.connectTimeoutMs),
      (bytes "backend_read_timeout_ms", decimalInt cfg.backendReadTimeoutMs),
      (bytes "max_response_body_bytes", decimalInt cfg.maxResponseBodyBytes),
      (bytes "max_idle_per_backend", decimalInt cfg.maxIdleConnsPerBackend)]
  | .healthCheck =>
    [(bytes "interval_ms", decimalInt cfg.healthCheckIntervalMs),
      (bytes "timeout_ms", decimalInt cfg.healthCheckTimeoutMs), (bytes "path", cfg.healthCheckPath)]
  | .backendGroups | .routes => []

/-- The lines of a block. -/
def Block.lines (cfg : GatewayConfig δ) (refill : Bytes) (block : Block) : List Line :=
  let keys := block.keys cfg refill
  match block with
  | .workers | .metricsPort => keys.map fun kv => entry 0 kv.1 kv.2
  | .listen => settingLines (bytes "listen") keys
  | .rateLimit => settingLines (bytes "rate_limit") keys
  | .cache => settingLines (bytes "cache") keys
  | .circuitBreaker => settingLines (bytes "circuit_breaker") keys
  | .retry => settingLines (bytes "retry") keys
  | .connection => settingLines (bytes "connection") keys
  | .healthCheck => settingLines (bytes "health_check") keys
  | .backendGroups => header 0 (bytes "backend_groups") :: cfg.backendGroups.flatMap groupLines
  | .routes => header 0 (bytes "routes") :: cfg.routes.flatMap routeLines

/-- What a block sets: the settings of its section, or more groups or routes. -/
def Block.assign (target : GatewayConfig δ) (cfg : GatewayConfig δ) : Block → GatewayConfig δ
  | .listen => { cfg with listenHost := target.listenHost, listenPort := target.listenPort }
  | .workers => { cfg with workerThreads := target.workerThreads }
  | .metricsPort => { cfg with metricsPort := target.metricsPort }
  | .rateLimit => { cfg with
      rateLimitCapacity := target.rateLimitCapacity
      rateLimitRefillPerSecond := target.rateLimitRefillPerSecond }
  | .cache => { cfg with cacheCapacity := target.cacheCapacity, cacheTtlMs := target.cacheTtlMs }
  | .circuitBreaker => { cfg with
      circuitFailureThreshold := target.circuitFailureThreshold
      circuitResetTimeoutMs := target.circuitResetTimeoutMs }
  | .retry => { cfg with
      retryMax := target.retryMax
      retryBaseDelayMs := target.retryBaseDelayMs
      retryMaxDelayMs := target.retryMaxDelayMs }
  | .connection => { cfg with
      connectTimeoutMs := target.connectTimeoutMs
      backendReadTimeoutMs := target.backendReadTimeoutMs
      maxResponseBodyBytes := target.maxResponseBodyBytes
      maxIdleConnsPerBackend := target.maxIdleConnsPerBackend }
  | .healthCheck => { cfg with
      healthCheckIntervalMs := target.healthCheckIntervalMs
      healthCheckTimeoutMs := target.healthCheckTimeoutMs
      healthCheckPath := target.healthCheckPath }
  | .backendGroups => { cfg with backendGroups := cfg.backendGroups ++ target.backendGroups }
  | .routes => { cfg with routes := cfg.routes ++ target.routes }

/-- Blocks set different things. -/
instance Block.assign_comm (target : GatewayConfig δ) : RightCommutative (Block.assign target) where
  right_comm cfg s t := by
    cases s
    all_goals cases t
    all_goals rfl

/-- In whatever order all blocks set what they set, they set everything. -/
theorem foldl_assign {target cfg : GatewayConfig δ} {order : List Block} (horder : order.Perm Block.all)
    (hgroups : cfg.backendGroups = []) (hroutes : cfg.routes = []) :
    order.foldl (Block.assign target) cfg = target := by
  -- one block after the other in the order of the file, on lists that are empty at first
  rw [horder.foldl_eq]
  simp only [Block.all, List.foldl_cons, List.foldl_nil, Block.assign, hgroups, hroutes, List.nil_append]

end Blocks

/-! ## Lines that are written -/

theorem plain_entry {k v : Bytes} (hk : Key k) (hv : Plain v) : Plain (k ++ colon :: sp :: v) where
  head := by
    obtain ⟨c, hc, hblank⟩ := hk.plain.head
    exact ⟨c, List.mem_head?_append_of_mem_head? hc, hblank⟩
  last := by
    obtain ⟨c, hc, hblank⟩ := hv.last
    refine ⟨c, ?_, hblank⟩
    rw [List.append_cons, List.append_cons]
    exact List.mem_getLast?_append_of_mem_getLast? hc
  no_hash := by
    simp only [List.mem_append, List.mem_cons, not_or]
    exact ⟨hk.plain.no_hash, by decide, by decide, hv.no_hash⟩
  no_lf := by
    simp only [List.mem_append, List.mem_cons, not_or]
    exact ⟨hk.plain.no_lf, by decide, by decide, hv.no_lf⟩

theorem plain_dash {s : Bytes} (h : Plain s) : Plain (bytes "- " ++ s) := by
  refine ⟨⟨45, rfl, by decide⟩, ?_, ?_, ?_⟩
  · obtain ⟨c, hc, hblank⟩ := h.last
    exact ⟨c, List.mem_getLast?_append_of_mem_getLast? hc, hblank⟩
  · rw [List.mem_append, not_or]
    exact ⟨by decide, h.no_hash⟩
  · rw [List.mem_append, not_or]
    exact ⟨by decide, h.no_lf⟩

theorem plain_item {k v : Bytes} (hk : Key k) (hv : Plain v) :
    Plain (bytes "- " ++ (k ++ colon :: sp :: v)) :=
  plain_dash (plain_entry hk hv)

theorem plain_decimalInt (v : ℤ) : Plain (decimalInt v) := by
  have hclean : ∀ c ∈ decimalInt v, c ∉ blank ∧ c ≠ hash ∧ c ≠ lf := by
    intro c hc
    rcases eq_or_isdigit_of_mem_decimalInt hc with rfl | hdigit
    · decide
    · refine ⟨fun hmem => ?_, ?_, ?_⟩
      · have hnone : ∀ c ∈ blank, isdigit c = false := by
          simp only [blank, List.forall_mem_cons]
          exact ⟨by decide, by decide, by decide, by simp⟩
        rw [hnone c hmem] at hdigit
        exact absurd hdigit (by decide)
      · rintro rfl
        exact absurd hdigit (by decide)
      · rintro rfl
        exact absurd hdigit (by decide)
  have hne : decimalInt v ≠ [] := by
    unfold decimalInt
    split
    · exact List.cons_ne_nil _ _
    · exact decimal_ne_nil _
  refine ⟨⟨_, List.head?_eq_some_head hne, (hclean _ (List.head_mem hne)).1⟩,
    ⟨_, List.getLast?_eq_some_getLast hne, (hclean _ (List.getLast_mem hne)).1⟩, ?_, ?_⟩
  · exact fun hmem => (hclean _ hmem).2.1 rfl
  · exact fun hmem => (hclean _ hmem).2.2 rfl

theorem plain_header {k : Bytes} (hk : Key k) : Plain (k ++ [colon]) where
  head := by
    obtain ⟨c, hc, hblank⟩ := hk.plain.head
    exact ⟨c, List.mem_head?_append_of_mem_head? hc, hblank⟩
  last := ⟨colon, List.mem_getLast?_append_of_mem_getLast? rfl, by decide⟩
  no_hash := by
    simp only [List.mem_append, List.mem_singleton, not_or]
    exact ⟨hk.plain.no_hash, by decide⟩
  no_lf := by
    simp only [List.mem_append, List.mem_singleton, not_or]
    exact ⟨hk.plain.no_lf, by decide⟩

/-- The values of a group can be written. -/
structure BackendGroupConfig.Writable (group : BackendGroupConfig) : Prop where
  name : Plain group.name
  strategy : Plain group.strategy
  backends : ∀ backend ∈ group.backends, Plain backend.host ∧ InInt backend.port

/-- The values of a route can be written. -/
structure RouteConfig.Writable (route : RouteConfig) : Prop where
  pathPrefix : Plain route.pathPrefix
  backendGroup : Plain route.backendGroup

/-- The values of a configuration can be written: strings are trimmed and hold no comment, and numbers fit
into an `int`. -/
structure GatewayConfig.Writable {δ : Type} (cfg : GatewayConfig δ) : Prop where
  strings : ∀ v ∈ [cfg.listenHost, cfg.healthCheckPath], Plain v
  ints : ∀ v ∈ [cfg.listenPort, cfg.workerThreads, cfg.metricsPort, cfg.rateLimitCapacity, cfg.cacheTtlMs,
    cfg.circuitFailureThreshold, cfg.circuitResetTimeoutMs, cfg.retryMax, cfg.retryBaseDelayMs,
    cfg.retryMaxDelayMs, cfg.connectTimeoutMs, cfg.backendReadTimeoutMs, cfg.healthCheckIntervalMs,
    cfg.healthCheckTimeoutMs], InInt v
  sizes : ∀ n ∈ [cfg.cacheCapacity, cfg.maxResponseBodyBytes, cfg.maxIdleConnsPerBackend], n < 2 ^ 31
  groups : ∀ group ∈ cfg.backendGroups, group.Writable
  routes : ∀ route ∈ cfg.routes, route.Writable

section Writable

variable {δ : Type} {cfg : GatewayConfig δ} {refill : Bytes}

theorem plain_keys (hcfg : cfg.Writable) (hrefill : Plain refill) (block : Block) :
    ∀ kv ∈ block.keys cfg refill, Key kv.1 ∧ Plain kv.2 := by
  have hstrings := hcfg.strings
  simp only [List.forall_mem_cons] at hstrings
  have hint := plain_decimalInt
  cases block with
  | listen => simpa [Block.keys] using ⟨⟨by decide, hstrings.1⟩, by decide, hint _⟩
  | workers => simpa [Block.keys] using ⟨by decide, hint _⟩
  | metricsPort => simpa [Block.keys] using ⟨by decide, hint _⟩
  | rateLimit => simpa [Block.keys] using ⟨⟨by decide, hint _⟩, by decide, hrefill⟩
  | cache => simpa [Block.keys] using ⟨⟨by decide, hint _⟩, by decide, hint _⟩
  | circuitBreaker => simpa [Block.keys] using ⟨⟨by decide, hint _⟩, by decide, hint _⟩
  | retry => simpa [Block.keys] using ⟨⟨by decide, hint _⟩, ⟨by decide, hint _⟩, by decide, hint _⟩
  | connection =>
    simpa [Block.keys] using
      ⟨⟨by decide, hint _⟩, ⟨by decide, hint _⟩, ⟨by decide, hint _⟩, by decide, hint _⟩
  | healthCheck =>
    simpa [Block.keys] using ⟨⟨by decide, hint _⟩, ⟨by decide, hint _⟩, by decide, hstrings.2.1⟩
  | backendGroups => simp [Block.keys]
  | routes => simp [Block.keys]

theorem plain_settingLines {name : Bytes} (hname : Key name) {kvs : List (Bytes × Bytes)}
    (hkvs : ∀ kv ∈ kvs, Key kv.1 ∧ Plain kv.2) : ∀ ln ∈ settingLines name kvs, Plain ln.content := by
  refine List.forall_mem_cons.mpr ⟨plain_header hname, fun ln hln => ?_⟩
  obtain ⟨kv, hkv, rfl⟩ := List.mem_map.mp hln
  exact plain_entry (hkvs kv hkv).1 (hkvs kv hkv).2

theorem plain_groupLines {group : BackendGroupConfig} (h : group.Writable) :
    ∀ ln ∈ groupLines group, Plain ln.content := by
  simp only [groupLines, List.forall_mem_cons, List.forall_mem_flatMap]
  refine ⟨plain_item (by decide) h.name, plain_entry (by decide) h.strategy, plain_header (by decide), ?_⟩
  intro backend hbackend
  simp only [backendLines, List.forall_mem_cons]
  exact ⟨plain_item (by decide) (h.backends backend hbackend).1,
    plain_entry (by decide) (plain_decimalInt _), by simp⟩

theorem plain_routeLines {route : RouteConfig} (h : route.Writable) :
    ∀ ln ∈ routeLines route, Plain ln.content := by
  have hplain : ∀ b : Bool, Plain (if b then bytes "true" else bytes "false") := by decide
  simp only [routeLines, List.forall_mem_cons]
  exact ⟨plain_item (by decide) h.pathPrefix, plain_entry (by decide) h.backendGroup,
    plain_entry (by decide) (hplain _), by simp⟩

theorem plain_lines (hcfg : cfg.Writable) (hrefill : Plain refill) (block : Block) :
    ∀ ln ∈ block.lines cfg refill, Plain ln.content := by
  have hkeys := plain_keys hcfg hrefill block
  have hentries : ∀ ln ∈ (block.keys cfg refill).map fun kv => entry 0 kv.1 kv.2, Plain ln.content := by
    intro ln hln
    obtain ⟨kv, hkv, rfl⟩ := List.mem_map.mp hln
    exact plain_entry (hkeys kv hkv).1 (hkeys kv hkv).2
  cases block with
  | workers => exact hentries
  | metricsPort => exact hentries
  | listen => exact plain_settingLines (by decide) hkeys
  | rateLimit => exact plain_settingLines (by decide) hkeys
  | cache => exact plain_settingLines (by decide) hkeys
  | circuitBreaker => exact plain_settingLines (by decide) hkeys
  | retry => exact plain_settingLines (by decide) hkeys
  | connection => exact plain_settingLines (by decide) hkeys
  | healthCheck => exact plain_settingLines (by decide) hkeys
  | backendGroups =>
    refine List.forall_mem_cons.mpr ⟨plain_header (by decide), ?_⟩
    rw [List.forall_mem_flatMap]
    exact fun group hgroup => plain_groupLines (hcfg.groups group hgroup)
  | routes =>
    refine List.forall_mem_cons.mpr ⟨plain_header (by decide), ?_⟩
    rw [List.forall_mem_flatMap]
    exact fun route hroute => plain_routeLines (hcfg.routes route hroute)

end Writable

/-! ## Numbers -/

theorem toInt_decimalInt {v : ℤ} (hv : InInt v) (default : ℤ) : toInt (decimalInt v) default = v := by
  rw [toInt, if_neg (plain_decimalInt v).ne_nil, stoi_decimalInt hv, Option.getD_some]

theorem toSize_toInt_decimalInt {n : ℕ} (hn : n < 2 ^ 31) (default : ℤ) :
    toSize (toInt (decimalInt n) default) = n := by
  rw [toInt_decimalInt ⟨by omega, by omega⟩, toSize]
  omega

/-! ## Sections of settings -/

section Reading

variable {δ : Type} {stod : Bytes → Option δ}

theorem toDouble_refill {refill : Bytes} (hrefill : Plain refill) {value : δ}
    (hstod : stod refill = some value) (default : δ) : toDouble stod refill default = value := by
  rw [toDouble, if_neg hrefill.ne_nil, hstod, Option.getD_some]

/-- The name of a section ends all others. -/
theorem readLine_header {name : Bytes} (hname : Key name) (hworkers : name ≠ bytes "workers")
    (hmetrics : name ≠ bytes "metrics_port") (ctx : Context δ) :
    readLine stod ctx (header 0 name) = { cfg := ctx.cfg, sectionName := name } := by
  have hkv : splitKv (header 0 name).content = (name, []) := splitKv_header hname
  simp only [readLine, header_indent, if_true, readTopLevel, hkv, if_neg hworkers, if_neg hmetrics]

theorem readLine_setting {ctx : Context δ} {read : Bytes → Bytes → GatewayConfig δ → GatewayConfig δ}
    (hread : settings stod ctx.sectionName = some read) {k v : Bytes} (hk : Key k) (hv : Plain v) :
    readLine stod ctx (entry 2 k v) = { ctx with cfg := read k v ctx.cfg } := by
  rw [readLine, if_neg (by simp)]
  simp only [hread, splitKv_content_entry 2 hk hv]

/-- A section of settings, wherever it stands. -/
theorem readLines_settings {name : Bytes} (hname : Key name)
    {read : Bytes → Bytes → GatewayConfig δ → GatewayConfig δ} (hread : settings stod name = some read)
    {kvs : List (Bytes × Bytes)} (hkvs : ∀ kv ∈ kvs, Key kv.1 ∧ Plain kv.2) (ctx : Context δ) :
    (readLines stod ctx (settingLines name kvs)).cfg
      = kvs.foldl (fun cfg kv => read kv.1 kv.2 cfg) ctx.cfg := by
  have hworkers : name ≠ bytes "workers" := by
    rintro rfl
    have hnone : settings stod (bytes "workers") = none := rfl
    exact Option.some_ne_none read (hread.symm.trans hnone)
  have hmetrics : name ≠ bytes "metrics_port" := by
    rintro rfl
    have hnone : settings stod (bytes "metrics_port") = none := rfl
    exact Option.some_ne_none read (hread.symm.trans hnone)
  -- a setting leaves the section's name, which is all that the next line asks for
  have hloop : ∀ ctx : Context δ, ctx.sectionName = name →
      ((kvs.map fun kv => entry 2 kv.1 kv.2).foldl (readLine stod) ctx).cfg
        = kvs.foldl (fun cfg kv => read kv.1 kv.2 cfg) ctx.cfg := by
    induction kvs with
    | nil => exact fun ctx _ => rfl
    | cons kv kvs ih =>
      rintro ctx rfl
      rw [List.forall_mem_cons] at hkvs
      rw [List.map_cons, List.foldl_cons, List.foldl_cons, readLine_setting hread hkvs.1.1 hkvs.1.2]
      exact ih hkvs.2 _ rfl
  rw [readLines, settingLines, List.foldl_cons, readLine_header hname hworkers hmetrics]
  exact hloop _ rfl

/-! ## Groups -/

theorem modify_length_append {α : Type*} (l : List α) (x : α) (f : α → α) :
    (l ++ [x]).modify l.length f = l ++ [f x] := by
  induction l with
  | nil => rfl
  | cons y l ih => rw [List.cons_append, List.length_cons, List.modify_succ_cons, ih, List.cons_append]

/-- The last group is being filled in. -/
def inGroup (cfg : GatewayConfig δ) (group : BackendGroupConfig) (listing : Bool) : Context δ where
  cfg := { cfg with backendGroups := cfg.backendGroups ++ [group] }
  sectionName := bytes "backend_groups"
  curGroup := some cfg.backendGroups.length
  inBackendsList := listing
  groupIndent := 2

theorem setGroup_inGroup (cfg : GatewayConfig δ) (group : BackendGroupConfig) (listing : Bool)
    (f : BackendGroupConfig → BackendGroupConfig) :
    (inGroup cfg group listing).setGroup cfg.backendGroups.length f = inGroup cfg (f group) listing := by
  simp only [Context.setGroup, inGroup, modify_length_append]

theorem readLine_group {ctx : Context δ} (hsection : ctx.sectionName = bytes "backend_groups") {ln : Line}
    (hindent : ln.indent ≠ 0) : readLine stod ctx ln = readGroupLine ctx ln := by
  have hnone : settings stod (bytes "backend_groups") = none := rfl
  simp only [readLine, if_neg hindent, hsection, hnone, if_true]

/-- In the section of the groups, between two lines of it. -/
structure AtGroups (ctx : Context δ) : Prop where
  sectionName : ctx.sectionName = bytes "backend_groups"
  groupIndent : ctx.groupIndent = -1 ∨ ctx.groupIndent = 2
  curRoute : ctx.curRoute = none
  routeListIndent : ctx.routeListIndent = -1

theorem atGroups_inGroup (cfg : GatewayConfig δ) (group : BackendGroupConfig) (listing : Bool) :
    AtGroups (inGroup cfg group listing) :=
  ⟨rfl, .inr rfl, rfl, rfl⟩

/-- A line of a group that starts nothing. -/
theorem readLine_groupKey (cfg : GatewayConfig δ) (group : BackendGroupConfig) (listing : Bool) {ln : Line}
    (hindent : ln.indent ≠ 0) (hitem : isListItem ln = false) :
    readLine stod (inGroup cfg group listing) ln
      = readGroupKey (inGroup cfg group listing) cfg.backendGroups.length (splitKv ln.content) := by
  rw [readLine_group rfl hindent, readGroupLine, hitem, Bool.false_and, if_neg (by decide)]
  simp only [inGroup, Bool.false_and, Bool.false_eq_true, if_false]

/-- The next group begins at the indentation of the others, and its first line can have the name only. -/
theorem readLine_groupItem {ctx : Context δ} (h : AtGroups ctx) (s : Bytes) :
    readLine stod ctx ⟨2, bytes "- " ++ s⟩
      = inGroup ctx.cfg (if (splitKv s).1 = bytes "name" then { name := (splitKv s).2 } else {}) false := by
  have hnew : (isListItem ⟨2, bytes "- " ++ s⟩ &&
      (ctx.groupIndent = -1 || ((2 : ℕ) : ℤ) = ctx.groupIndent)) = true := by
    have hitem : isListItem ⟨2, bytes "- " ++ s⟩ = true := rfl
    rcases h.groupIndent with hindent | hindent
    · simp [hitem, hindent]
    · simp [hitem, hindent]
  rw [readLine_group h.sectionName (by simp), readGroupLine, if_pos hnew, newGroup, inGroup, h.sectionName,
    h.curRoute, h.routeListIndent]
  rfl

theorem readLine_newGroup {ctx : Context δ} (h : AtGroups ctx) {name : Bytes} (hname : Plain name) :
    readLine stod ctx (item 2 (bytes "name") name) = inGroup ctx.cfg { name } false := by
  rw [item, readLine_groupItem h, splitKv_entry (by decide) hname, if_pos rfl]

theorem readLine_strategy (cfg : GatewayConfig δ) (group : BackendGroupConfig) (listing : Bool)
    {strategy : Bytes} (hstrategy : Plain strategy) :
    readLine stod (inGroup cfg group listing) (entry 4 (bytes "strategy") strategy)
      = inGroup cfg { group with strategy } listing := by
  rw [readLine_groupKey cfg group listing (by simp) rfl, splitKv_content_entry 4 (by decide) hstrategy]
  exact setGroup_inGroup cfg group listing fun group => { group with strategy }

theorem readLine_backends (cfg : GatewayConfig δ) (group : BackendGroupConfig) (listing : Bool) :
    readLine stod (inGroup cfg group listing) (header 4 (bytes "backends")) = inGroup cfg group true := by
  have hkv : splitKv (header 4 (bytes "backends")).content = (bytes "backends", []) :=
    splitKv_header (by decide)
  rw [readLine_groupKey cfg group listing (by simp) rfl, hkv]
  rfl

theorem setBack_concat (f : BackendConfig → BackendConfig) (group : BackendGroupConfig)
    (backend : BackendConfig) :
    BackendGroupConfig.setBack f { group with backends := group.backends ++ [backend] }
      = { group with backends := group.backends ++ [f backend] } := by
  rw [BackendGroupConfig.setBack, List.length_append, List.length_singleton, Nat.add_sub_cancel,
    modify_length_append]

/-- A mark farther in begins a backend, once the backends are listed. -/
theorem readLine_backendItem (cfg : GatewayConfig δ) (group : BackendGroupConfig) (s : Bytes) :
    readLine stod (inGroup cfg group true) ⟨6, bytes "- " ++ s⟩
      = inGroup cfg (newBackend (splitKv s) group) true := by
  rw [readLine_group rfl (by simp), readGroupLine]
  exact setGroup_inGroup cfg group true (newBackend (splitKv s))

/-- A backend is added to the group that is being filled in. -/
theorem readLines_backend (cfg : GatewayConfig δ) (group : BackendGroupConfig) {backend : BackendConfig}
    (hhost : Plain backend.host) (hport : InInt backend.port) :
    readLines stod (inGroup cfg group true) (backendLines backend)
      = inGroup cfg { group with backends := group.backends ++ [backend] } true := by
  have hnew : readLine stod (inGroup cfg group true) (item 6 (bytes "host") backend.host)
      = inGroup cfg { group with backends := group.backends ++ [{ host := backend.host }] } true := by
    rw [item, readLine_backendItem, splitKv_entry (by decide) hhost, newBackend, if_pos rfl]
  -- the port goes to the backend that the line before has added
  have hback : BackendGroupConfig.setBack (fun b => { b with port := toInt (decimalInt backend.port) 0 })
      { group with backends := group.backends ++ [{ host := backend.host }] }
      = { group with backends := group.backends ++ [backend] } := by
    rw [setBack_concat, toInt_decimalInt hport]
  rw [readLines, backendLines, List.foldl_cons, List.foldl_cons, List.foldl_nil, hnew,
    readLine_groupKey cfg _ true (by simp) rfl,
    splitKv_content_entry 8 (by decide) (plain_decimalInt backend.port), ← hback]
  exact setGroup_inGroup cfg _ true _

theorem readLines_append (ctx : Context δ) (l l' : List Line) :
    readLines stod ctx (l ++ l') = readLines stod (readLines stod ctx l) l' :=
  List.foldl_append

theorem readLines_backends (cfg : GatewayConfig δ) {backends : List BackendConfig}
    (h : ∀ backend ∈ backends, Plain backend.host ∧ InInt backend.port) (group : BackendGroupConfig) :
    readLines stod (inGroup cfg group true) (backends.flatMap backendLines)
      = inGroup cfg { group with backends := group.backends ++ backends } true := by
  induction backends generalizing group with
  | nil => rw [List.append_nil]; rfl
  | cons backend backends ih =>
    rw [List.forall_mem_cons] at h
    rw [List.flatMap_cons, readLines_append, readLines_backend cfg group h.1.1 h.1.2, ih h.2,
      List.append_assoc, List.singleton_append]

/-- A group is added, with its own backends. -/
theorem readLines_group {ctx : Context δ} (h : AtGroups ctx) {group : BackendGroupConfig}
    (hgroup : group.Writable) :
    readLines stod ctx (groupLines group) = inGroup ctx.cfg group true := by
  rw [groupLines, readLines, List.foldl_cons, List.foldl_cons, List.foldl_cons,
    readLine_newGroup h hgroup.name, readLine_strategy _ _ _ hgroup.strategy, readLine_backends]
  exact readLines_backends ctx.cfg hgroup.backends _

theorem readLines_groups {groups : List BackendGroupConfig} (hgroups : ∀ group ∈ groups, group.Writable)
    {ctx : Context δ} (h : AtGroups ctx) :
    (readLines stod ctx (groups.flatMap groupLines)).cfg
      = { ctx.cfg with backendGroups := ctx.cfg.backendGroups ++ groups } := by
  induction groups generalizing ctx with
  | nil => rw [List.append_nil]; rfl
  | cons group groups ih =>
    rw [List.forall_mem_cons] at hgroups
    rw [List.flatMap_cons, readLines_append, readLines_group h hgroups.1,
      ih hgroups.2 (atGroups_inGroup ctx.cfg group true)]
    simp only [inGroup, List.append_assoc, List.singleton_append]

/-! ## Routes -/

/-- The last route is being filled in. -/
def inRoute (cfg : GatewayConfig δ) (route : RouteConfig) : Context δ where
  cfg := { cfg with routes := cfg.routes ++ [route] }
  sectionName := bytes "routes"
  curRoute := some cfg.routes.length
  routeListIndent := 2

theorem setRoute_inRoute (cfg : GatewayConfig δ) (route : RouteConfig) (f : RouteConfig → RouteConfig) :
    (inRoute cfg route).setRoute cfg.routes.length f = inRoute cfg (f route) := by
  simp only [Context.setRoute, inRoute, modify_length_append]

theorem readLine_route {ctx : Context δ} (hsection : ctx.sectionName = bytes "routes") {ln : Line}
    (hindent : ln.indent ≠ 0) : readLine stod ctx ln = readRouteLine ctx ln := by
  have hnone : settings stod (bytes "routes") = none := rfl
  have hne : bytes "routes" ≠ bytes "backend_groups" := by decide
  simp only [readLine, if_neg hindent, hsection, hnone, if_neg hne, if_true]

/-- In the section of the routes, between two lines of it. -/
structure AtRoutes (ctx : Context δ) : Prop where
  sectionName : ctx.sectionName = bytes "routes"
  routeListIndent : ctx.routeListIndent = -1 ∨ ctx.routeListIndent = 2
  curGroup : ctx.curGroup = none
  inBackendsList : ctx.inBackendsList = false
  groupIndent : ctx.groupIndent = -1

theorem atRoutes_inRoute (cfg : GatewayConfig δ) (route : RouteConfig) : AtRoutes (inRoute cfg route) :=
  ⟨rfl, .inr rfl, rfl, rfl, rfl⟩

theorem readLine_routeKey (cfg : GatewayConfig δ) (route : RouteConfig) {ln : Line}
    (hindent : ln.indent ≠ 0) (hitem : isListItem ln = false) :
    readLine stod (inRoute cfg route) ln
      = readRouteKey (inRoute cfg route) cfg.routes.length (splitKv ln.content) := by
  rw [readLine_route rfl hindent, readRouteLine, hitem, Bool.false_and, if_neg (by decide)]
  rfl

/-- The next route begins no farther in than the others, and its first line can have the path only. -/
theorem readLine_routeItem {ctx : Context δ} (h : AtRoutes ctx) (s : Bytes) :
    readLine stod ctx ⟨2, bytes "- " ++ s⟩
      = inRoute ctx.cfg
          (if (splitKv s).1 = bytes "path_prefix" then { pathPrefix := (splitKv s).2 } else {}) := by
  have hnew : (isListItem ⟨2, bytes "- " ++ s⟩ &&
      (ctx.routeListIndent = -1 || ((2 : ℕ) : ℤ) ≤ ctx.routeListIndent)) = true := by
    have hitem : isListItem ⟨2, bytes "- " ++ s⟩ = true := rfl
    rcases h.routeListIndent with hindent | hindent
    · simp [hitem, hindent]
    · simp [hitem, hindent]
  rw [readLine_route h.sectionName (by simp), readRouteLine, if_pos hnew, newRoute, inRoute, h.sectionName,
    h.curGroup, h.inBackendsList, h.groupIndent]
  rfl

theorem readLine_newRoute {ctx : Context δ} (h : AtRoutes ctx) {pathPrefix : Bytes}
    (hpath : Plain pathPrefix) :
    readLine stod ctx (item 2 (bytes "path_prefix") pathPrefix) = inRoute ctx.cfg { pathPrefix } := by
  rw [item, readLine_routeItem h, splitKv_entry (by decide) hpath, if_pos rfl]

theorem readLine_backendGroup (cfg : GatewayConfig δ) (route : RouteConfig) {backendGroup : Bytes}
    (hgroup : Plain backendGroup) :
    readLine stod (inRoute cfg route) (entry 4 (bytes "backend_group") backendGroup)
      = inRoute cfg { route with backendGroup } := by
  rw [readLine_routeKey cfg route (by simp) rfl, splitKv_content_entry 4 (by decide) hgroup]
  exact setRoute_inRoute cfg route fun route => { route with backendGroup }

theorem readLine_cacheable (cfg : GatewayConfig δ) (route : RouteConfig) (cacheable : Bool) :
    readLine stod (inRoute cfg route)
        (entry 4 (bytes "cacheable") (if cacheable then bytes "true" else bytes "false"))
      = inRoute cfg { route with cacheable } := by
  have hplain : ∀ b : Bool, Plain (if b then bytes "true" else bytes "false") := by decide
  have htrue : ∀ b : Bool, decide ((if b then bytes "true" else bytes "false") = bytes "true") = b := by
    decide
  rw [readLine_routeKey cfg route (by simp) rfl, splitKv_content_entry 4 (by decide) (hplain cacheable)]
  refine (setRoute_inRoute cfg route _).trans ?_
  simp only [htrue]

theorem readLines_route {ctx : Context δ} (h : AtRoutes ctx) {route : RouteConfig}
    (hroute : route.Writable) : readLines stod ctx (routeLines route) = inRoute ctx.cfg route := by
  rw [routeLines, readLines, List.foldl_cons, List.foldl_cons, List.foldl_cons, List.foldl_nil,
    readLine_newRoute h hroute.pathPrefix, readLine_backendGroup _ _ hroute.backendGroup,
    readLine_cacheable]

theorem readLines_routes {routes : List RouteConfig} (hroutes : ∀ route ∈ routes, route.Writable)
    {ctx : Context δ} (h : AtRoutes ctx) :
    (readLines stod ctx (routes.flatMap routeLines)).cfg
      = { ctx.cfg with routes := ctx.cfg.routes ++ routes } := by
  induction routes generalizing ctx with
  | nil => rw [List.append_nil]; rfl
  | cons route routes ih =>
    rw [List.forall_mem_cons] at hroutes
    rw [List.flatMap_cons, readLines_append, readLines_route h hroutes.1,
      ih hroutes.2 (atRoutes_inRoute ctx.cfg route)]
    simp only [inRoute, List.append_assoc, List.singleton_append]

/-! ## Whole files -/

/-- **What a block sets does not depend on where it stands.** -/
theorem readLines_block {cfg : GatewayConfig δ} (hcfg : cfg.Writable) {refill : Bytes}
    (hrefill : Plain refill) (hstod : stod refill = some cfg.rateLimitRefillPerSecond) (block : Block)
    (ctx : Context δ) :
    (readLines stod ctx (block.lines cfg refill)).cfg = block.assign cfg ctx.cfg := by
  have hkeys := plain_keys hcfg hrefill block
  have hints := hcfg.ints
  have hsizes := hcfg.sizes
  simp only [List.forall_mem_cons] at hints hsizes
  obtain ⟨hlistenPort, hworkerThreads, hmetricsPort, hrateLimitCapacity, hcacheTtlMs, hthreshold,
    hresetTimeout, hretryMax, hbaseDelay, hmaxDelay, hconnectTimeout, hreadTimeout, hinterval, htimeout,
    -⟩ := hints
  obtain ⟨hcacheCapacity, hmaxBody, hmaxIdle, -⟩ := hsizes
  cases block with
  | listen =>
    rw [Block.lines, readLines_settings (by decide) rfl hkeys]
    simp +decide only [Block.keys, List.foldl_cons, List.foldl_nil, readListen, if_true, if_false,
      toInt_decimalInt hlistenPort, Block.assign]
  | workers =>
    have hkv := splitKv_entry (k := bytes "workers") (by decide) (plain_decimalInt cfg.workerThreads)
    simp +decide only [Block.lines, Block.keys, List.map_cons, List.map_nil, readLines, List.foldl_cons,
      List.foldl_nil, readLine, readTopLevel, entry, hkv, if_true, if_false, toInt_decimalInt hworkerThreads,
      Block.assign]
  | metricsPort =>
    have hkv := splitKv_entry (k := bytes "metrics_port") (by decide) (plain_decimalInt cfg.metricsPort)
    simp +decide only [Block.lines, Block.keys, List.map_cons, List.map_nil, readLines, List.foldl_cons,
      List.foldl_nil, readLine, readTopLevel, entry, hkv, if_true, if_false, toInt_decimalInt hmetricsPort,
      Block.assign]
  | rateLimit =>
    rw [Block.lines, readLines_settings (by decide) rfl hkeys]
    simp +decide only [Block.keys, List.foldl_cons, List.foldl_nil, readRateLimit, if_true,
      if_false, toInt_decimalInt hrateLimitCapacity, toDouble_refill hrefill hstod, Block.assign]
  | cache =>
    rw [Block.lines, readLines_settings (by decide) rfl hkeys]
    simp +decide only [Block.keys, List.foldl_cons, List.foldl_nil, readCache, if_true, if_false,
      toSize_toInt_decimalInt hcacheCapacity, toInt_decimalInt hcacheTtlMs, Block.assign]
  | circuitBreaker =>
    rw [Block.lines, readLines_settings (by decide) rfl hkeys]
    simp +decide only [Block.keys, List.foldl_cons, List.foldl_nil, readCircuitBreaker, if_true,
      if_false, toInt_decimalInt hthreshold, toInt_decimalInt hresetTimeout, Block.assign]
  | retry =>
    rw [Block.lines, readLines_settings (by decide) rfl hkeys]
    simp +decide only [Block.keys, List.foldl_cons, List.foldl_nil, readRetry, if_true, if_false,
      toInt_decimalInt hretryMax, toInt_decimalInt hbaseDelay, toInt_decimalInt hmaxDelay,
      Block.assign]
  | connection =>
    rw [Block.lines, readLines_settings (by decide) rfl hkeys]
    simp +decide only [Block.keys, List.foldl_cons, List.foldl_nil, readConnection, if_true,
      if_false, toInt_decimalInt hconnectTimeout, toInt_decimalInt hreadTimeout,
      toSize_toInt_decimalInt hmaxBody, toSize_toInt_decimalInt hmaxIdle, Block.assign]
  | healthCheck =>
    rw [Block.lines, readLines_settings (by decide) rfl hkeys]
    simp +decide only [Block.keys, List.foldl_cons, List.foldl_nil, readHealthCheck, if_true,
      if_false, toInt_decimalInt hinterval, toInt_decimalInt htimeout, Block.assign]
  | backendGroups =>
    rw [Block.lines, readLines, List.foldl_cons, readLine_header (by decide) (by decide) (by decide)]
    exact readLines_groups hcfg.groups ⟨rfl, .inl rfl, rfl, rfl⟩
  | routes =>
    rw [Block.lines, readLines, List.foldl_cons, readLine_header (by decide) (by decide) (by decide)]
    exact readLines_routes hcfg.routes ⟨rfl, .inl rfl, rfl, rfl, rfl⟩

theorem readLines_blocks {cfg : GatewayConfig δ} (hcfg : cfg.Writable) {refill : Bytes}
    (hrefill : Plain refill) (hstod : stod refill = some cfg.rateLimitRefillPerSecond)
    (order : List Block) (ctx : Context δ) :
    (readLines stod ctx (order.flatMap (Block.lines cfg refill))).cfg
      = order.foldl (Block.assign cfg) ctx.cfg := by
  induction order generalizing ctx with
  | nil => rfl
  | cons block order ih =>
    rw [List.flatMap_cons, readLines_append, ih, readLines_block hcfg hrefill hstod, List.foldl_cons]

end Reading

/-- **The layout is read back exactly.** A configuration that passes the validation is written with its
blocks in any order, and with blanks, comments and empty lines anywhere. Loading the file gives the same
settings, groups, backends and routes, in the same order. -/
theorem loadFromFile_layout {δ : Type} [NatCast δ] [LE δ] [DecidableLE δ] (stod : Bytes → Option δ)
    {cfg : GatewayConfig δ} (hvalid : validate cfg = .ok ()) (hcfg : cfg.Writable) {refill : Bytes}
    (hrefill : Plain refill) (hstod : stod refill = some cfg.rateLimitRefillPerSecond)
    {order : List Block} (horder : order.Perm Block.all) {text : Bytes}
    (htext : Renders (order.flatMap (Block.lines cfg refill)) text) (path : Bytes) :
    loadFromFile stod path (some text) = .ok cfg := by
  have hplain : ∀ ln ∈ order.flatMap (Block.lines cfg refill), Plain ln.content := by
    rw [List.forall_mem_flatMap]
    exact fun block _ => plain_lines hcfg hrefill block
  have hloop := readLines_blocks hcfg hrefill hstod order
    { cfg := { rateLimitRefillPerSecond := ((50 : ℕ) : δ) } }
  rw [foldl_assign horder rfl rfl] at hloop
  simp only [loadFromFile, tokenize_of_renders htext hplain, hloop, hvalid]
  rfl

/-- Two groups, one of them with two backends, and a negative number. -/
def sample : GatewayConfig ℤ where
  rateLimitRefillPerSecond := 100
  cacheTtlMs := -1
  backendGroups :=
    [{ name := bytes "users:v1",
       backends := [{ host := bytes "127.0.0.1", port := 9001 }, { host := bytes "::1", port := 9002 }] },
      { name := bytes "orders", strategy := bytes "least_connections",
        backends := [{ host := bytes "127.0.0.1", port := 9003 }] }]
  routes := [{ pathPrefix := bytes "/api", backendGroup := bytes "orders", cacheable := true }]

/-- The lines of a file with a first line of comment, and a comment behind each other one. -/
def commented (lines : List Line) : List Bytes :=
  bytes "# a sample" ::
    lines.map fun ln => List.replicate ln.indent sp ++ ln.content ++ bytes " \t# as given"

theorem written_commented (lines : List Line) : Written lines (commented lines) := by
  refine .filler ⟨[], bytes "# a sample", rfl, by simp, .inr ⟨_, rfl⟩, by decide⟩ ?_
  induction lines with
  | nil => exact .nil
  | cons ln lines ih =>
    exact .line ln ⟨[sp, tab], bytes "# as given", rfl, by simp [blank], .inr ⟨_, rfl⟩, by decide⟩ ih

theorem loadFromFile_layout_sample :
    loadFromFile stoi (bytes "gateway.yaml")
      (some ((commented (Block.all.reverse.flatMap (Block.lines sample (bytes "100")))).flatMap (· ++ [lf])))
      = .ok sample := by
  have hwritable : sample.Writable := by
    refine ⟨by decide, by decide, by decide, ?_, ?_⟩
    · simp only [sample, List.forall_mem_cons]
      exact ⟨⟨by decide, by decide, by decide⟩, ⟨by decide, by decide, by decide⟩, by simp⟩
    · simp only [sample, List.forall_mem_cons]
      exact ⟨⟨by decide, by decide⟩, by simp⟩
  exact loadFromFile_layout stoi rfl hwritable (by decide) rfl (List.reverse_perm _)
    ⟨_, written_commented _, .inl rfl⟩ (bytes "gateway.yaml")

end ApiGateway.Config
