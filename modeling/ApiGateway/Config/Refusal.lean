import ApiGateway.Config.Safety

/-!
# Which files are refused

The validation at the end of `loadFromFile` looks at some of the numbers, and at the groups, backends and routes as they
have been read. A number is the last one that the file gives for its key, and an item is read as its texts say, but for
a key that is dropped on its first line (`Item.texts`). So whether a file passes can be read off what is written in it
(`validate_fileConfig_iff`).

That completes the account of the order of the keys: two files are loaded alike if their items agree, or if neither of
them passes (`rearranged_load_iff`).

Reference: `GatewayConfig::loadFromFile` in `src/config/Config.cpp`, `config/gateway.yaml`.
-/

namespace ApiGateway.Config

open Str Http

/-! ## What is written -/

def IsPort (n : ℤ) : Prop := 0 < n ∧ n ≤ 65535

namespace Item

/-- The backend has a host, and a port that can be one. -/
structure HasAddress (i : Item BackendKey) : Prop where
  host : ∃ v ∈ i.texts .host, v ≠ []
  port : ∃ v ∈ i.texts .port, ∃ n ∈ stoi v, IsPort n

/-- The route has a prefix that begins with a slash, and a group. -/
structure HasTarget (i : Item RouteKey) : Prop where
  pathPrefix : ∃ v ∈ i.texts .pathPrefix, v.head? = some slash
  backendGroup : ∃ v ∈ i.texts .backendGroup, v ≠ []

end Item

/-- The group has a name, no strategy that is not known, and backends with addresses. -/
structure GroupItem.Complete (g : GroupItem) : Prop where
  name : ∃ v ∈ g.keys.texts .name, v ≠ []
  strategy : ∀ v ∈ g.keys.texts .strategy, v = bytes "round_robin" ∨ v = bytes "least_connections"
  some_backend : g.backends ≠ []
  backends : ∀ i ∈ g.backends, i.HasAddress

/-- The texts that are given for a key at the margin. -/
def atMargin (key : Bytes) : List Line → List Bytes
  | [] => []
  | ln :: lines =>
    let kv := splitKv ln.content
    if ln.indent = 0 ∧ kv.1 = key then kv.2 :: atMargin key lines else atMargin key lines

/-- The numbers that are validated. -/
structure Numbers (δ : Type) where
  listenPort : ℤ
  metricsPort : ℤ
  workerThreads : ℤ
  rateLimitCapacity : ℤ
  rateLimitRefillPerSecond : δ
  maxResponseBodyBytes : ℕ
  backendReadTimeoutMs : ℤ
  connectTimeoutMs : ℤ

section Written

variable {δ : Type} (stod : Bytes → Option δ)

/-- The last `double` among the texts. -/
def lastDouble (default : δ) (texts : List Bytes) : δ :=
  ((texts.filter (· ≠ [])).filterMap stod).getLast?.getD default

variable [NatCast δ]

/-- The numbers that the lines of a file give. -/
def numbersOf (lines : List Line) : Numbers δ where
  listenPort := number lines (bytes "listen") (bytes "port") 8080
  metricsPort := lastNumber 9090 (atMargin (bytes "metrics_port") lines)
  workerThreads := lastNumber 4 (atMargin (bytes "workers") lines)
  rateLimitCapacity := number lines (bytes "rate_limit") (bytes "capacity") 100
  rateLimitRefillPerSecond :=
    lastDouble stod (50 : ℕ) (given (bytes "rate_limit") (bytes "refill_per_second") [] lines)
  maxResponseBodyBytes :=
    toSize (number lines (bytes "connection") (bytes "max_response_body_bytes") (10 * 1024 * 1024))
  backendReadTimeoutMs := number lines (bytes "connection") (bytes "backend_read_timeout_ms") 3000
  connectTimeoutMs := number lines (bytes "connection") (bytes "connect_timeout_ms") 1000

variable [LE δ]

structure Numbers.InRange (n : Numbers δ) : Prop where
  listenPort : IsPort n.listenPort
  metricsPort : IsPort n.metricsPort
  ports_differ : n.listenPort ≠ n.metricsPort
  workerThreads : 0 < n.workerThreads
  rateLimitCapacity : 0 < n.rateLimitCapacity
  rateLimitRefillPerSecond : ¬ n.rateLimitRefillPerSecond ≤ ((0 : ℕ) : δ)
  maxResponseBodyBytes : n.maxResponseBodyBytes ≠ 0
  backendReadTimeoutMs : 0 < n.backendReadTimeoutMs
  connectTimeoutMs : 0 < n.connectTimeoutMs

/-- **What a file has to say.** -/
structure Passes (file : List Section) : Prop where
  numbers : (numbersOf stod (file.flatMap Section.lines)).InRange
  some_group : file.flatMap Section.groupItems ≠ []
  some_route : file.flatMap Section.routeItems ≠ []
  groups : ∀ g ∈ file.flatMap Section.groupItems, g.Complete
  routes : ∀ i ∈ file.flatMap Section.routeItems, i.HasTarget

end Written

/-! ## Validation -/

theorem forM_eq_ok_iff {α : Type} {f : α → Except Bytes Unit} {l : List α} :
    l.forM f = .ok () ↔ ∀ a ∈ l, f a = .ok () := by
  induction l with
  | nil => simp [List.forM, pure, Except.pure]
  | cons a l ih =>
    rw [List.forM, List.forall_mem_cons, ← ih]
    cases f a with
    | error e => simp [bind, Except.bind]
    | ok u => simp [bind, Except.bind]

theorem refuse_eq_ok_iff {c : Prop} [Decidable c] {e : Bytes} {k : Except Bytes Unit} :
    (if c then throw e else k) = .ok () ↔ ¬ c ∧ k = .ok () := by
  split
  · rename_i hc
    exact iff_of_false (by simp [throw, throwThe, MonadExceptOf.throw]) fun h => h.1 hc
  · rename_i hc
    exact (and_iff_right hc).symm

theorem bind_eq_ok_iff {r k : Except Bytes Unit} : (r >>= fun _ => k) = .ok () ↔ r = .ok () ∧ k = .ok () := by
  cases r with
  | error e => simp [bind, Except.bind]
  | ok u => simp [bind, Except.bind]

theorem validateBackend_eq_ok_iff {b : BackendConfig} :
    validateBackend b = .ok () ↔ b.host ≠ [] ∧ IsPort b.port := by
  rw [validateBackend, refuse_eq_ok_iff, and_iff_left (by rfl), IsPort]
  simp only [Bool.or_eq_true, decide_eq_true_eq, not_or, not_le, gt_iff_lt, not_lt, and_assoc, ne_eq]

theorem validateGroup_eq_ok_iff {g : BackendGroupConfig} :
    validateGroup g = .ok () ↔
      (g.name ≠ [] ∧ g.backends ≠ []) ∧ (g.strategy = bytes "round_robin" ∨ g.strategy = bytes "least_connections") ∧
        ∀ b ∈ g.backends, validateBackend b = .ok () := by
  rw [validateGroup, refuse_eq_ok_iff, forM_eq_ok_iff]
  simp only [Bool.or_eq_true, Bool.and_eq_true, decide_eq_true_eq, not_or, not_and_or, not_not, and_assoc, ne_eq]

theorem validateRoute_eq_ok_iff {r : RouteConfig} :
    validateRoute r = .ok () ↔ r.pathPrefix.head? = some slash ∧ r.backendGroup ≠ [] := by
  rw [validateRoute, refuse_eq_ok_iff, and_iff_left (by rfl)]
  simp only [Bool.or_eq_true, decide_eq_true_eq, not_or, not_not, ne_eq]
  refine and_congr_left fun _ => and_iff_right_of_imp ?_
  rintro hhead hnil
  simp [hnil] at hhead

section Validate

variable {δ : Type}

def GatewayConfig.numbers (cfg : GatewayConfig δ) : Numbers δ where
  listenPort := cfg.listenPort
  metricsPort := cfg.metricsPort
  workerThreads := cfg.workerThreads
  rateLimitCapacity := cfg.rateLimitCapacity
  rateLimitRefillPerSecond := cfg.rateLimitRefillPerSecond
  maxResponseBodyBytes := cfg.maxResponseBodyBytes
  backendReadTimeoutMs := cfg.backendReadTimeoutMs
  connectTimeoutMs := cfg.connectTimeoutMs

variable [NatCast δ] [LE δ]

/-- What `validate` looks at. -/
structure Valid (cfg : GatewayConfig δ) : Prop where
  numbers : cfg.numbers.InRange
  some_group : cfg.backendGroups ≠ []
  some_route : cfg.routes ≠ []
  groups : ∀ g ∈ cfg.backendGroups, validateGroup g = .ok ()
  routes : ∀ r ∈ cfg.routes, validateRoute r = .ok ()

variable [DecidableLE δ]

theorem validate_eq_ok_iff {cfg : GatewayConfig δ} : validate cfg = .ok () ↔ Valid cfg := by
  have hshape : validate cfg =
      if cfg.listenPort ≤ 0 || cfg.listenPort > 65535 || cfg.metricsPort ≤ 0 || cfg.metricsPort > 65535 ||
          cfg.workerThreads ≤ 0 || cfg.rateLimitCapacity ≤ 0 || cfg.rateLimitRefillPerSecond ≤ (0 : ℕ) ||
          cfg.maxResponseBodyBytes = 0 || cfg.backendReadTimeoutMs ≤ 0 || cfg.connectTimeoutMs ≤ 0 then
        throw (bytes "invalid gateway configuration values")
      else if cfg.listenPort = cfg.metricsPort then throw (bytes "listen and metrics ports must differ")
      else if cfg.backendGroups = [] || cfg.routes = [] then
        throw (bytes "at least one backend group and route are required")
      else cfg.backendGroups.forM validateGroup >>= fun _ => cfg.routes.forM validateRoute := rfl
  rw [hshape, refuse_eq_ok_iff, refuse_eq_ok_iff, refuse_eq_ok_iff, bind_eq_ok_iff, forM_eq_ok_iff, forM_eq_ok_iff]
  simp only [Bool.or_eq_true, decide_eq_true_eq, not_or, not_le, gt_iff_lt, not_lt, and_assoc]
  constructor
  · rintro ⟨hlisten, hlisten', hmetrics, hmetrics', hworkers, hcapacity, hrefill, hbody, hread, hconnect, hdiffer,
      hgroup, hroute, hgroups, hroutes⟩
    exact ⟨⟨⟨hlisten, hlisten'⟩, ⟨hmetrics, hmetrics'⟩, hdiffer, hworkers, hcapacity, hrefill, hbody, hread, hconnect⟩,
      hgroup, hroute, hgroups, hroutes⟩
  · rintro ⟨h, hgroup, hroute, hgroups, hroutes⟩
    exact ⟨h.listenPort.1, h.listenPort.2, h.metricsPort.1, h.metricsPort.2, h.workerThreads, h.rateLimitCapacity,
      h.rateLimitRefillPerSecond, h.maxResponseBodyBytes, h.backendReadTimeoutMs, h.connectTimeoutMs, h.ports_differ,
      hgroup, hroute, hgroups, hroutes⟩

end Validate

/-! ## The numbers of a file -/

section Numbers

variable {δ : Type} {stod : Bytes → Option δ}

theorem foldl_toDouble (texts : List Bytes) (default : δ) :
    texts.foldl (fun v s => toDouble stod s v) default = lastDouble stod default texts := by
  induction texts generalizing default with
  | nil => rfl
  | cons s texts ih =>
    rw [List.foldl_cons, ih, toDouble, lastDouble, lastDouble]
    split
    · rename_i hnil
      rw [List.filter_cons_of_neg (by simpa using hnil)]
    · rename_i hne
      rw [List.filter_cons_of_pos (by simpa using hne)]
      cases hstod : stod s with
      | none => rw [List.filterMap_cons_none hstod, Option.getD_none]
      | some v => rw [List.filterMap_cons_some hstod, List.getLast?_cons, Option.getD_some, Option.getD_some]

/-- **The settings at the margin are made of the texts that are given there.** -/
theorem readLines_margin (lines : List Line) (ctx : Context δ) :
    (readLines stod ctx lines).cfg.workerThreads
        = (atMargin (bytes "workers") lines).foldl (fun n v => toInt v n) ctx.cfg.workerThreads ∧
      (readLines stod ctx lines).cfg.metricsPort
        = (atMargin (bytes "metrics_port") lines).foldl (fun n v => toInt v n) ctx.cfg.metricsPort := by
  have hne : bytes "workers" ≠ bytes "metrics_port" := by decide
  induction lines generalizing ctx with
  | nil => exact ⟨rfl, rfl⟩
  | cons ln lines ih =>
    obtain ⟨hworkers, hmetrics⟩ := ih (readLine stod ctx ln)
    rw [readLines, List.foldl_cons, ← readLines, hworkers, hmetrics, atMargin, atMargin]
    by_cases hindent : ln.indent = 0
    · rw [readLine, if_pos hindent, readTopLevel]
      simp only [hindent, true_and]
      split_ifs with hkey hkey' hkey'
      · exact absurd (hkey.symm.trans hkey') hne
      · exact ⟨rfl, rfl⟩
      · exact ⟨rfl, rfl⟩
      · exact ⟨rfl, rfl⟩
    · simp only [hindent, false_and, if_false]
      rcases readLine_indented stod ctx hindent with ⟨read, hread, hline⟩ | ⟨-, ⟨groups, routes, hcfg⟩, -⟩
      · rw [hline, (unchanged_settings hread _ _ ctx.cfg).margin.1, (unchanged_settings hread _ _ ctx.cfg).margin.2]
        exact ⟨rfl, rfl⟩
      · rw [hcfg]
        exact ⟨rfl, rfl⟩

theorem readListen_listenPort (k v : Bytes) (cfg : GatewayConfig δ) :
    (readListen k v cfg).listenPort
      = if k = bytes "port" then toInt v cfg.listenPort else cfg.listenPort := by
  by_cases hk : k = bytes "port"
  · subst hk
    rfl
  · simp only [readListen, hk, if_false]
    split_ifs
    all_goals rfl

theorem readRateLimit_rateLimitCapacity (k v : Bytes) (cfg : GatewayConfig δ) :
    (readRateLimit stod k v cfg).rateLimitCapacity
      = if k = bytes "capacity" then toInt v cfg.rateLimitCapacity else cfg.rateLimitCapacity := by
  rw [readRateLimit]
  split_ifs
  all_goals rfl

theorem readRateLimit_rateLimitRefillPerSecond (k v : Bytes) (cfg : GatewayConfig δ) :
    (readRateLimit stod k v cfg).rateLimitRefillPerSecond
      = if k = bytes "refill_per_second" then toDouble stod v cfg.rateLimitRefillPerSecond
        else cfg.rateLimitRefillPerSecond := by
  by_cases hk : k = bytes "refill_per_second"
  · subst hk
    rfl
  · simp only [readRateLimit, hk, if_false]
    split_ifs
    all_goals rfl

theorem readConnection_connectTimeoutMs (k v : Bytes) (cfg : GatewayConfig δ) :
    (readConnection k v cfg).connectTimeoutMs
      = if k = bytes "connect_timeout_ms" then toInt v cfg.connectTimeoutMs else cfg.connectTimeoutMs := by
  rw [readConnection]
  split_ifs
  all_goals rfl

theorem readConnection_backendReadTimeoutMs (k v : Bytes) (cfg : GatewayConfig δ) :
    (readConnection k v cfg).backendReadTimeoutMs
      = if k = bytes "backend_read_timeout_ms" then toInt v cfg.backendReadTimeoutMs
        else cfg.backendReadTimeoutMs := by
  by_cases hk : k = bytes "backend_read_timeout_ms"
  · subst hk
    rfl
  · simp only [readConnection, hk, if_false]
    split_ifs
    all_goals rfl

variable (stod)

def listenPort : Setting stod ℤ where
  name := bytes "listen"
  key := bytes "port"
  read := readListen
  get := GatewayConfig.listenPort
  put n v := toInt v n
  settings_name := rfl
  get_read := readListen_listenPort
  get_other hread hname k v cfg := (unchanged_settings hread k v cfg).listen hname
  get_top _ _ _ := rfl
  get_withLists _ _ _ := rfl

def rateLimitCapacity : Setting stod ℤ where
  name := bytes "rate_limit"
  key := bytes "capacity"
  read := readRateLimit stod
  get := GatewayConfig.rateLimitCapacity
  put n v := toInt v n
  settings_name := rfl
  get_read := readRateLimit_rateLimitCapacity
  get_other hread hname k v cfg := ((unchanged_settings hread k v cfg).rateLimit hname).1
  get_top _ _ _ := rfl
  get_withLists _ _ _ := rfl

def rateLimitRefillPerSecond : Setting stod δ where
  name := bytes "rate_limit"
  key := bytes "refill_per_second"
  read := readRateLimit stod
  get := GatewayConfig.rateLimitRefillPerSecond
  put n v := toDouble stod v n
  settings_name := rfl
  get_read := readRateLimit_rateLimitRefillPerSecond
  get_other hread hname k v cfg := ((unchanged_settings hread k v cfg).rateLimit hname).2
  get_top _ _ _ := rfl
  get_withLists _ _ _ := rfl

def connectTimeoutMs : Setting stod ℤ where
  name := bytes "connection"
  key := bytes "connect_timeout_ms"
  read := readConnection
  get := GatewayConfig.connectTimeoutMs
  put n v := toInt v n
  settings_name := settings_connection stod
  get_read := readConnection_connectTimeoutMs
  get_other hread hname k v cfg := ((unchanged_settings hread k v cfg).connection hname).2.1
  get_top _ _ _ := rfl
  get_withLists _ _ _ := rfl

def backendReadTimeoutMs : Setting stod ℤ where
  name := bytes "connection"
  key := bytes "backend_read_timeout_ms"
  read := readConnection
  get := GatewayConfig.backendReadTimeoutMs
  put n v := toInt v n
  settings_name := settings_connection stod
  get_read := readConnection_backendReadTimeoutMs
  get_other hread hname k v cfg := ((unchanged_settings hread k v cfg).connection hname).2.2
  get_top _ _ _ := rfl
  get_withLists _ _ _ := rfl

end Numbers

/-! ## Items as they are read -/

theorem isPort_read_iff {text : Option Bytes} :
    IsPort (ItemKey.read BackendKey.port text) ↔ ∃ v ∈ text, ∃ n ∈ stoi v, IsPort n := by
  have hzero : ¬ IsPort 0 := by simp [IsPort]
  cases text with
  | none => exact iff_of_false hzero (by simp)
  | some v =>
    have hread : ItemKey.read BackendKey.port (some v) = toInt v 0 := rfl
    rw [hread, toInt_eq]
    cases hstoi : stoi v with
    | none => exact iff_of_false hzero (by simp [hstoi])
    | some n => simp [hstoi]

theorem getD_ne_nil_iff {text : Option Bytes} : text.getD [] ≠ [] ↔ ∃ v ∈ text, v ≠ [] := by
  cases text with
  | none => simp
  | some v => simp

theorem validateBackend_item_iff {i : Item BackendKey} :
    validateBackend (backendOf i.texts) = .ok () ↔ i.HasAddress := by
  rw [validateBackend_eq_ok_iff]
  exact (and_congr getD_ne_nil_iff isPort_read_iff).trans ⟨fun h => ⟨h.1, h.2⟩, fun h => ⟨h.host, h.port⟩⟩

theorem validateGroup_item_iff {g : GroupItem} : validateGroup g.config = .ok () ↔ g.Complete := by
  have hstrategy : g.config.strategy = bytes "round_robin" ∨ g.config.strategy = bytes "least_connections" ↔
      ∀ v ∈ g.keys.texts .strategy, v = bytes "round_robin" ∨ v = bytes "least_connections" := by
    have hread : g.config.strategy = (g.keys.texts .strategy).getD (bytes "round_robin") := rfl
    rw [hread]
    cases g.keys.texts .strategy with
    | none => simp
    | some v => simp
  have hbackends : (∀ b ∈ g.config.backends, validateBackend b = .ok ()) ↔ ∀ i ∈ g.backends, i.HasAddress := by
    show (∀ b ∈ g.backends.map fun i => backendOf i.texts, validateBackend b = .ok ()) ↔ _
    rw [List.forall_mem_map]
    exact forall₂_congr fun i _ => validateBackend_item_iff
  have hname : g.config.name ≠ [] ↔ ∃ v ∈ g.keys.texts .name, v ≠ [] := getD_ne_nil_iff
  have hsome : g.config.backends ≠ [] ↔ g.backends ≠ [] := not_congr List.map_eq_nil_iff
  rw [validateGroup_eq_ok_iff, hname, hsome, hstrategy, hbackends]
  exact ⟨fun h => ⟨h.1.1, h.2.1, h.1.2, h.2.2⟩, fun h => ⟨⟨h.name, h.some_backend⟩, h.strategy, h.backends⟩⟩

theorem validateRoute_item_iff {i : Item RouteKey} : validateRoute (routeOf i.texts) = .ok () ↔ i.HasTarget := by
  have hprefix : (routeOf i.texts).pathPrefix.head? = some slash ↔ ∃ v ∈ i.texts .pathPrefix, v.head? = some slash := by
    have hread : (routeOf i.texts).pathPrefix = (i.texts .pathPrefix).getD [] := rfl
    rw [hread]
    cases i.texts .pathPrefix with
    | none => simp
    | some v => simp
  rw [validateRoute_eq_ok_iff, hprefix]
  exact (and_congr_right fun _ => getD_ne_nil_iff).trans ⟨fun h => ⟨h.1, h.2⟩, fun h => ⟨h.pathPrefix, h.backendGroup⟩⟩

/-! ## Files -/

section Files

variable {δ : Type} [NatCast δ]

theorem fileConfig_eq_readLines (stod : Bytes → Option δ) (file : List Section) :
    fileConfig stod file = (readLines stod { cfg := initial } (file.flatMap Section.lines)).cfg :=
  (readLines_sections file { cfg := initial }).symm

theorem numbers_readLines (stod : Bytes → Option δ) (lines : List Line) :
    (readLines stod { cfg := initial } lines).cfg.numbers = numbersOf stod lines := by
  obtain ⟨hworkers, hmetrics⟩ := readLines_margin lines ({ cfg := initial } : Context δ)
  simp only [GatewayConfig.numbers, numbersOf, Numbers.mk.injEq]
  exact ⟨(listenPort stod).get_number rfl lines, hmetrics.trans (foldl_toInt _ _), hworkers.trans (foldl_toInt _ _),
    (rateLimitCapacity stod).get_number rfl lines,
    ((rateLimitRefillPerSecond stod).get_readLines lines Iff.rfl).trans (foldl_toDouble _ _),
    (maxResponseBodyBytes stod).get_size rfl (by decide) rfl lines,
    (backendReadTimeoutMs stod).get_number rfl lines, (connectTimeoutMs stod).get_number rfl lines⟩

variable [LE δ] [DecidableLE δ] (stod : Bytes → Option δ)

/-- **Whether a file passes can be read off what is written in it.** -/
theorem validate_fileConfig_iff (file : List Section) :
    validate (fileConfig stod file) = .ok () ↔ Passes stod file := by
  have hnumbers : (fileConfig stod file).numbers = numbersOf stod (file.flatMap Section.lines) := by
    rw [fileConfig_eq_readLines, numbers_readLines]
  have hgroups : (∀ g ∈ (fileConfig stod file).backendGroups, validateGroup g = .ok ()) ↔
      ∀ g ∈ file.flatMap Section.groupItems, g.Complete := by
    rw [fileConfig_lists, GatewayConfig.withLists, List.forall_mem_map]
    exact forall₂_congr fun g _ => validateGroup_item_iff
  have hroutes : (∀ r ∈ (fileConfig stod file).routes, validateRoute r = .ok ()) ↔
      ∀ i ∈ file.flatMap Section.routeItems, i.HasTarget := by
    rw [fileConfig_lists, GatewayConfig.withLists, List.forall_mem_map]
    exact forall₂_congr fun i _ => validateRoute_item_iff
  have hsome : (fileConfig stod file).backendGroups ≠ [] ↔ file.flatMap Section.groupItems ≠ [] := by
    rw [fileConfig_lists]
    exact not_congr List.map_eq_nil_iff
  have hsome' : (fileConfig stod file).routes ≠ [] ↔ file.flatMap Section.routeItems ≠ [] := by
    rw [fileConfig_lists]
    exact not_congr List.map_eq_nil_iff
  rw [validate_eq_ok_iff]
  exact ⟨fun h => ⟨hnumbers ▸ h.numbers, hsome.mp h.some_group, hsome'.mp h.some_route, hgroups.mp h.groups,
      hroutes.mp h.routes⟩,
    fun h => ⟨hnumbers ▸ h.numbers, hsome.mpr h.some_group, hsome'.mpr h.some_route, hgroups.mpr h.groups,
      hroutes.mpr h.routes⟩⟩

/-- **When the order of the keys does not matter.** -/
theorem rearranged_load_iff {file file' : List Section}
    (h : List.Forall₂ Section.Rearranged file file') {text text' : Bytes}
    (htext : Renders (file.flatMap Section.lines) text)
    (htext' : Renders (file'.flatMap Section.lines) text') (path : Bytes) :
    SameResult (loadFromFile stod path (some text)) (loadFromFile stod path (some text'))
      ↔ Agreeing file file' ∨ ¬ Passes stod file ∧ ¬ Passes stod file' := by
  rw [loadFromFile_sections file htext, loadFromFile_sections file' htext', sameResult_checked_iff,
    fileConfig_eq_iff h, ne_eq, ne_eq, validate_fileConfig_iff, validate_fileConfig_iff]

end Files

/-- Below a first line that stays, the keys may change places. -/
theorem rearranged_load_cacheable :
    SameResult (loadFromFile stoi [] (some (oneGroupText nameFirst groupBeforeCacheable)))
      (loadFromFile stoi [] (some (oneGroupText nameFirst cacheableBeforeGroup))) := by
  have hroute : groupBeforeCacheable.Rearranged cacheableBeforeGroup := .cons _ (.swap _ _ _)
  refine (rearranged_load_iff stoi (rearranged_oneGroup (.refl _) hroute)
    (renders_plainText _) (renders_plainText _) []).mpr (.inl ⟨?_, ?_⟩)
  · exact .cons ⟨.inl rfl, .cons (.inl rfl) .nil⟩ .nil
  · exact .cons (.inl rfl) .nil

/-- Both files are accepted. In the second one the group begins with its strategy, and the strategy is
lost. -/
theorem strategy_dropped :
    List.Forall₂ Section.Rearranged (oneGroup nameFirst groupBeforeCacheable)
        (oneGroup strategyFirst groupBeforeCacheable) ∧
      (loadFromFile stoi [] (some (oneGroupText nameFirst groupBeforeCacheable))).toOption.map
          (fun cfg => cfg.backendGroups.map (·.strategy)) = some [bytes "least_connections"] ∧
      (loadFromFile stoi [] (some (oneGroupText strategyFirst groupBeforeCacheable))).toOption.map
          (fun cfg => cfg.backendGroups.map (·.strategy)) = some [bytes "round_robin"] ∧
      ¬ SameResult (loadFromFile stoi [] (some (oneGroupText nameFirst groupBeforeCacheable)))
        (loadFromFile stoi [] (some (oneGroupText strategyFirst groupBeforeCacheable))) := by
  have hload : ∀ keys, loadFromFile stoi [] (some (oneGroupText keys groupBeforeCacheable))
      = checked (fileConfig stoi (oneGroup keys groupBeforeCacheable)) :=
    fun keys => loadFromFile_sections _ (renders_plainText _) []
  have hkeys : nameFirst.Rearranged strategyFirst := .swap _ _ _
  rw [hload, hload]
  refine ⟨rearranged_oneGroup hkeys (.refl _), rfl, rfl, ?_⟩
  rw [sameResult_checked_iff]
  decide

end ApiGateway.Config
