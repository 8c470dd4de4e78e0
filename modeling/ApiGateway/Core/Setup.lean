import ApiGateway.Config.Refusal
import ApiGateway.Core.Sockets
import ApiGateway.Routing.Router

/-!
# From the configuration to the backends

`buildRouter` makes a load balancer for each group of the configuration and a route for each of its routes. A
group replaces an earlier one of the same name, and a route to a group that is not there is left out: paths that
it covers go to a shorter route, or to none (`routes_follow_config`).

From there on the balancers are only picked from, and the addresses of the backends never change. So whatever the
workers and the health checker do, a request for a path is sent to an address that the configuration lists for the
group of the route (`requests_reach_configured_backends`).

Reference: `Gateway::Gateway` and `Gateway::buildRouter` in `src/core/Gateway.cpp`.
-/

namespace ApiGateway.Core

open Str Http Config Routing Network

/-! ## The model -/

/-- A group of the configuration; a vector's size is a `size_t`. -/
abbrev SizedGroup := { group : BackendGroupConfig // group.backends.length < 2 ^ 64 }

/-- What `buildRouter` fills in. The pointers to the load balancers are numbers, in the order in which the
balancers are made. -/
structure Built where
  allBackends : List Backend := []
  balancers : List LoadBalancer := []
  loadBalancers : Finmap fun _ : Bytes => ℕ := ∅
  routes : List (Route ℕ) := []
  /-- Message and fields of the warnings. -/
  warnings : List (Bytes × Bytes) := []

section Build

variable {δ : Type} (cfg : GatewayConfig δ)

def makeBackend (b : BackendConfig) : Backend where
  host := b.host
  port := b.port
  circuitBreaker :=
    { failureThreshold := cfg.circuitFailureThreshold, resetTimeout := cfg.circuitResetTimeoutMs }

def lbStrategy (strategy : Bytes) : LbStrategy :=
  if strategy = bytes "least_connections" then .LeastConnections else .RoundRobin

def makeBalancer (group : SizedGroup) : LoadBalancer where
  backends := group.1.backends.map (makeBackend cfg)
  strategy := lbStrategy group.1.strategy
  size_lt := (List.length_map _).trans_lt group.2

namespace Built

/-- A round of the loop over the groups. -/
def addGroup (g : Built) (group : SizedGroup) : Built :=
  { g with
    allBackends := g.allBackends ++ (makeBalancer cfg group).backends
    balancers := g.balancers ++ [makeBalancer cfg group]
    loadBalancers := g.loadBalancers.insert group.1.name g.balancers.length }

def unknownGroup (r : RouteConfig) : Bytes × Bytes :=
  (bytes "route references unknown backend group",
    bytes "\"path_prefix\":\"" ++ r.pathPrefix ++ bytes "\",\"backend_group\":\"" ++ r.backendGroup ++ bytes "\"")

/-- A round of the loop over the routes, with the sort that `addRoute` does. -/
def addRoute (std : StdSort (Router.longer (β := ℕ))) (g : Built) (r : RouteConfig) : Built :=
  match g.loadBalancers.lookup r.backendGroup with
  | none => { g with warnings := g.warnings ++ [unknownGroup r] }
  | some lb => { g with routes := Router.addRoute std g.routes ⟨r.pathPrefix, lb, r.cacheable⟩ }

end Built

/-- `Gateway::buildRouter`, with the sort of each route. -/
def buildRouter (hsize : ∀ group ∈ cfg.backendGroups, group.backends.length < 2 ^ 64)
    (sorts : ℕ → StdSort (Router.longer (β := ℕ))) : Built :=
  cfg.routes.zipIdx.foldl (fun g call => g.addRoute (sorts call.2) call.1)
    ((cfg.backendGroups.attachWith _ hsize).foldl (Built.addGroup cfg) {})

/-! ## Groups -/

/-- The group at `i` is the last one of this name. -/
def LastNamed (groups : List BackendGroupConfig) (name : Bytes) (i : ℕ) : Prop :=
  ∃ before group after, groups = before ++ group :: after ∧ before.length = i ∧ group.name = name ∧
    ∀ other ∈ after, other.name ≠ name

/-- What the loop over the groups has done. -/
structure Grouped (groups : List BackendGroupConfig) (g : Built) : Prop where
  allBackends : g.allBackends = g.balancers.flatMap LoadBalancer.backends
  balancers : g.balancers.map (fun lb => (lb.backends, lb.strategy))
    = groups.map fun group => (group.backends.map (makeBackend cfg), lbStrategy group.strategy)
  named : ∀ name i, g.loadBalancers.lookup name = some i → LastNamed groups name i
  unnamed : ∀ name, g.loadBalancers.lookup name = none → ∀ group ∈ groups, group.name ≠ name

namespace Grouped

variable {cfg} {groups : List BackendGroupConfig} {g : Built}

theorem length_balancers (h : Grouped cfg groups g) : g.balancers.length = groups.length := by
  simpa using congrArg List.length h.balancers

theorem addGroup (h : Grouped cfg groups g) (group : SizedGroup) :
    Grouped cfg (groups ++ [group.1]) (g.addGroup cfg group) where
  allBackends := by
    simp only [Built.addGroup, h.allBackends, List.flatMap_append, List.flatMap_singleton]
  balancers := by
    simp only [Built.addGroup, List.map_append, h.balancers]
    rfl
  named name i hlookup := by
    rw [Built.addGroup] at hlookup
    by_cases hname : name = group.1.name
    · rw [hname, Finmap.lookup_insert] at hlookup
      refine ⟨groups, group.1, [], rfl, ?_, hname.symm, by simp⟩
      rw [← h.length_balancers]
      exact Option.some.inj hlookup
    · rw [Finmap.lookup_insert_of_ne _ hname] at hlookup
      obtain ⟨before, found, after, rfl, hlength, hfound, hafter⟩ := h.named name i hlookup
      refine ⟨before, found, after ++ [group.1], by simp, hlength, hfound, ?_⟩
      rw [List.forall_mem_append, List.forall_mem_singleton]
      exact ⟨hafter, Ne.symm hname⟩
  unnamed name hlookup := by
    rw [Built.addGroup] at hlookup
    have hname : name ≠ group.1.name := by
      rintro rfl
      rw [Finmap.lookup_insert] at hlookup
      cases hlookup
    rw [Finmap.lookup_insert_of_ne _ hname] at hlookup
    rw [List.forall_mem_append, List.forall_mem_singleton]
    exact ⟨h.unnamed name hlookup, hname.symm⟩

theorem foldl (sized : List SizedGroup) (h : Grouped cfg groups g) :
    Grouped cfg (groups ++ sized.map Subtype.val) (sized.foldl (Built.addGroup cfg) g) := by
  induction sized generalizing groups g with
  | nil => simpa using h
  | cons group sized ih => simpa using ih (h.addGroup group)

/-- A name is known if a group has it. -/
theorem lookup_isSome_iff (h : Grouped cfg groups g) (name : Bytes) :
    (g.loadBalancers.lookup name).isSome = true ↔ ∃ group ∈ groups, group.name = name := by
  cases hlookup : g.loadBalancers.lookup name with
  | none => simpa using h.unnamed name hlookup
  | some i =>
    obtain ⟨before, group, after, rfl, -, hname, -⟩ := h.named name i hlookup
    simp only [Option.isSome_some, true_iff]
    exact ⟨group, by simp, hname⟩

end Grouped

theorem grouped_nil : Grouped cfg [] {} where
  allBackends := rfl
  balancers := rfl
  named name i hlookup := by simp at hlookup
  unnamed name _ := by simp

/-! ## Routes -/

/-- The route to a group that is there. -/
def routeTo (lbs : Finmap fun _ : Bytes => ℕ) (r : RouteConfig) : Option (Route ℕ) :=
  (lbs.lookup r.backendGroup).map fun lb => ⟨r.pathPrefix, lb, r.cacheable⟩

/-- A call of `addRoute`. -/
def routeCall (sorts : ℕ → StdSort (Router.longer (β := ℕ))) (lbs : Finmap fun _ : Bytes => ℕ)
    (call : RouteConfig × ℕ) : Option (StdSort (Router.longer (β := ℕ)) × Route ℕ) :=
  (routeTo lbs call.1).map fun route => (sorts call.2, route)

section Routes

variable (sorts : ℕ → StdSort (Router.longer (β := ℕ)))

/-- **The loop over the routes.** -/
theorem foldl_addRoute (calls : List (RouteConfig × ℕ)) (g : Built) :
    calls.foldl (fun g call => g.addRoute (sorts call.2) call.1) g =
      { g with
        routes := (calls.filterMap (routeCall sorts g.loadBalancers)).foldl
          (fun routes call => Router.addRoute call.1 routes call.2) g.routes
        warnings := g.warnings ++ (calls.filter fun call =>
          (g.loadBalancers.lookup call.1.backendGroup).isNone).map fun call => Built.unknownGroup call.1 } := by
  induction calls generalizing g with
  | nil => simp
  | cons call calls ih =>
    rw [List.foldl_cons, ih, Built.addRoute]
    cases hlookup : g.loadBalancers.lookup call.1.backendGroup with
    | none => simp [routeCall, routeTo, hlookup]
    | some lb => simp [routeCall, routeTo, hlookup]

variable (hsize : ∀ group ∈ cfg.backendGroups, group.backends.length < 2 ^ 64)

theorem grouped_groups :
    Grouped cfg cfg.backendGroups ((cfg.backendGroups.attachWith _ hsize).foldl (Built.addGroup cfg) {}) := by
  simpa using (grouped_nil cfg).foldl (cfg.backendGroups.attachWith _ hsize)

theorem grouped_buildRouter : Grouped cfg cfg.backendGroups (buildRouter cfg hsize sorts) := by
  have h := grouped_groups cfg hsize
  rw [buildRouter, foldl_addRoute]
  exact ⟨h.allBackends, h.balancers, h.named, h.unnamed⟩

/-- Groups add no routes and no warnings. -/
theorem foldl_addGroup (sized : List SizedGroup) (g : Built) :
    (sized.foldl (Built.addGroup cfg) g).routes = g.routes ∧
      (sized.foldl (Built.addGroup cfg) g).warnings = g.warnings := by
  induction sized generalizing g with
  | nil => exact ⟨rfl, rfl⟩
  | cons group sized ih => exact ih (g.addGroup cfg group)

/-- The calls of `addRoute`. -/
def routeCalls : List (StdSort (Router.longer (β := ℕ)) × Route ℕ) :=
  cfg.routes.zipIdx.filterMap (routeCall sorts (buildRouter cfg hsize sorts).loadBalancers)

theorem loadBalancers_buildRouter :
    (buildRouter cfg hsize sorts).loadBalancers
      = ((cfg.backendGroups.attachWith _ hsize).foldl (Built.addGroup cfg) {}).loadBalancers := by
  rw [buildRouter, foldl_addRoute]

theorem routes_buildRouter :
    (buildRouter cfg hsize sorts).routes = Router.table (routeCalls cfg sorts hsize) := by
  rw [routeCalls, loadBalancers_buildRouter, buildRouter, foldl_addRoute, (foldl_addGroup cfg _ _).1]
  rfl

theorem warnings_buildRouter :
    (buildRouter cfg hsize sorts).warnings = (cfg.routes.filter fun r =>
      ((buildRouter cfg hsize sorts).loadBalancers.lookup r.backendGroup).isNone).map Built.unknownGroup := by
  have hfst : ∀ (calls : List (RouteConfig × ℕ)) (p : RouteConfig → Bool),
      (calls.filter fun call => p call.1).map (fun call => Built.unknownGroup call.1)
        = ((calls.map Prod.fst).filter p).map Built.unknownGroup := by
    intro calls p
    rw [List.filter_map, List.map_map]
    rfl
  rw [loadBalancers_buildRouter, buildRouter, foldl_addRoute, (foldl_addGroup cfg _ _).2]
  dsimp only
  rw [hfst _ fun r => (Finmap.lookup r.backendGroup _).isNone, List.zipIdx_map_fst, List.nil_append]

/-- Which routes are added does not depend on the sorts. -/
theorem map_snd_routeCalls :
    (routeCalls cfg sorts hsize).map Prod.snd
      = cfg.routes.filterMap (routeTo (buildRouter cfg hsize sorts).loadBalancers) := by
  have hfst : ∀ calls : List (RouteConfig × ℕ), ∀ lbs,
      (calls.filterMap (routeCall sorts lbs)).map Prod.snd = (calls.map Prod.fst).filterMap (routeTo lbs) := by
    intro calls lbs
    rw [List.map_filterMap, List.filterMap_map]
    refine List.filterMap_congr fun call _ => ?_
    rw [routeCall, Option.map_map]
    exact Option.map_id'
  rw [routeCalls, hfst, List.zipIdx_map_fst]

/-- The routes that are added. -/
theorem mem_routeCalls_iff (route : Route ℕ) :
    route ∈ (routeCalls cfg sorts hsize).map Prod.snd ↔ ∃ r ∈ cfg.routes,
      (buildRouter cfg hsize sorts).loadBalancers.lookup r.backendGroup = some route.lb ∧
        route.pathPrefix = r.pathPrefix ∧ route.cacheable = r.cacheable := by
  rw [map_snd_routeCalls, List.mem_filterMap]
  refine exists_congr fun r => and_congr_right fun _ => ?_
  obtain ⟨pathPrefix, lb, cacheable⟩ := route
  simp only [routeTo, Option.map_eq_some_iff, Route.mk.injEq]
  constructor
  · rintro ⟨_, hlookup, rfl, rfl, rfl⟩
    exact ⟨hlookup, rfl, rfl⟩
  · rintro ⟨hlookup, rfl, rfl⟩
    exact ⟨lb, hlookup, rfl, rfl, rfl⟩

end Routes

/-! ## The loaded configuration -/

section Loaded

variable [NatCast δ] [LE δ] [DecidableLE δ] {stod : Bytes → Option δ} {cfg}

theorem validate_of_loadFromFile {configPath : Bytes} {file : Option Bytes}
    (h : loadFromFile stod configPath file = .ok cfg) : validate cfg = .ok () := by
  cases file with
  | none => cases h
  | some text =>
    obtain ⟨hvalid, rfl⟩ := checked_eq_ok_iff.mp h
    exact hvalid

/-- Every prefix begins with a slash. -/
theorem slash_of_validate (h : validate cfg = .ok ()) : ∀ r ∈ cfg.routes, [slash] <+: r.pathPrefix := by
  intro r hr
  have hhead := (validateRoute_eq_ok_iff.mp ((validate_eq_ok_iff.mp h).routes r hr)).1
  obtain ⟨rest, hrest⟩ := List.head?_eq_some_iff.mp hhead
  exact ⟨rest, hrest.symm⟩

/-- **The routes follow the configuration.** For every file that is accepted, whatever the sorts do: every backend
of every group is made, and known to the health checker; a path has a route if and only if a route of the
configuration covers it whose group is there; the route that is found has the longest prefix of those, and leads to
the last group of its name; there is a warning for each route whose group is missing; and the prefix that is found
does not depend on the sorts. -/
theorem routes_follow_config {configPath : Bytes} {file : Option Bytes}
    (hload : loadFromFile stod configPath file = .ok cfg)
    (hsize : ∀ group ∈ cfg.backendGroups, group.backends.length < 2 ^ 64)
    (sorts : ℕ → StdSort (Router.longer (β := ℕ))) (path : Bytes) :
    let g := buildRouter cfg hsize sorts
    g.balancers.map (fun lb => (lb.backends, lb.strategy)) = (cfg.backendGroups.map fun group =>
      (group.backends.map (makeBackend cfg), lbStrategy group.strategy)) ∧
    g.allBackends = g.balancers.flatMap LoadBalancer.backends ∧
    (Router.matchRoute g.routes path = none ↔ ∀ r ∈ cfg.routes, Router.Covers r.pathPrefix path →
      ∀ group ∈ cfg.backendGroups, group.name ≠ r.backendGroup) ∧
    (∀ route, Router.matchRoute g.routes path = some route → ∃ r ∈ cfg.routes,
      route.pathPrefix = r.pathPrefix ∧ route.cacheable = r.cacheable ∧ Router.Covers r.pathPrefix path ∧
      LastNamed cfg.backendGroups r.backendGroup route.lb ∧
      ∀ r' ∈ cfg.routes, Router.Covers r'.pathPrefix path →
        (∃ group ∈ cfg.backendGroups, group.name = r'.backendGroup) →
        r'.pathPrefix.length ≤ r.pathPrefix.length) ∧
    g.warnings = (cfg.routes.filter fun r => cfg.backendGroups.all (·.name ≠ r.backendGroup)).map
      Built.unknownGroup ∧
    ∀ sorts' : ℕ → StdSort (Router.longer (β := ℕ)),
      (Router.matchRoute (buildRouter cfg hsize sorts').routes path).map Route.pathPrefix
        = (Router.matchRoute g.routes path).map Route.pathPrefix := by
  intro g
  have hgrouped : Grouped cfg cfg.backendGroups g := grouped_buildRouter cfg sorts hsize
  have hroutes : g.routes = Router.table (routeCalls cfg sorts hsize) := routes_buildRouter cfg sorts hsize
  have hmem := mem_routeCalls_iff cfg sorts hsize
  -- a route of the configuration is added if its group is there
  have hadded : ∀ r ∈ cfg.routes, (∃ group ∈ cfg.backendGroups, group.name = r.backendGroup) →
      ∃ call ∈ routeCalls cfg sorts hsize, call.2.pathPrefix = r.pathPrefix := by
    intro r hr hgroup
    obtain ⟨lb, hlb⟩ := Option.isSome_iff_exists.mp ((hgrouped.lookup_isSome_iff r.backendGroup).mpr hgroup)
    obtain ⟨call, hcall, heq⟩ := List.mem_map.mp ((hmem ⟨r.pathPrefix, lb, r.cacheable⟩).mpr ⟨r, hr, hlb, rfl, rfl⟩)
    exact ⟨call, hcall, by rw [heq]⟩
  refine ⟨hgrouped.balancers, hgrouped.allBackends, ?_, ?_, ?_, ?_⟩
  · rw [hroutes, Router.matchRoute_eq_none_iff]
    constructor
    · intro hnone r hr hcovers group hgroup hname
      obtain ⟨call, hcall, heq⟩ := hadded r hr ⟨group, hgroup, hname⟩
      exact hnone call hcall (heq ▸ hcovers)
    · intro hnone call hcall hcovers
      obtain ⟨r, hr, hlookup, heq, -⟩ := (hmem call.2).mp (List.mem_map_of_mem hcall)
      obtain ⟨group, hgroup, hname⟩ :=
        (hgrouped.lookup_isSome_iff r.backendGroup).mp (Option.isSome_iff_exists.mpr ⟨_, hlookup⟩)
      exact hnone r hr (heq ▸ hcovers) group hgroup hname
  · intro route hroute
    rw [hroutes] at hroute
    obtain ⟨hin, hcovers, hlongest⟩ := Router.matchRoute_eq_some _ hroute
    obtain ⟨r, hr, hlookup, hpath, hcacheable⟩ := (hmem route).mp hin
    refine ⟨r, hr, hpath, hcacheable, hpath ▸ hcovers, hgrouped.named _ _ hlookup, fun r' hr' hcovers' hgroup => ?_⟩
    obtain ⟨call, hcall, heq⟩ := hadded r' hr' hgroup
    rw [← heq, ← hpath]
    exact hlongest call hcall (heq ▸ hcovers')
  · rw [warnings_buildRouter]
    congr 1
    refine List.filter_congr fun r _ => ?_
    have hiff := hgrouped.lookup_isSome_iff r.backendGroup
    rw [Bool.eq_iff_iff, ← Option.not_isSome, Bool.not_eq_true', ← Bool.not_eq_true, hiff]
    simp
  · intro sorts'
    rw [hroutes, routes_buildRouter]
    refine Router.matchRoute_pathPrefix_eq _ (fun call hcall => ?_) ?_ path
    · obtain ⟨r, hr, -, heq, -⟩ := (hmem call.2).mp (List.mem_map_of_mem hcall)
      exact heq ▸ slash_of_validate (validate_of_loadFromFile hload) r hr
    · rw [map_snd_routeCalls, map_snd_routeCalls, loadBalancers_buildRouter, loadBalancers_buildRouter]

end Loaded

end Build

/-- A file with a route to a group that is not there. -/
def ordersMissingText : Bytes :=
  bytes ("backend_groups:\n  - name: users\n    backends:\n      - host: a\n        port: 9001\n"
    ++ "routes:\n  - path_prefix: /\n    backend_group: users\n"
    ++ "  - path_prefix: /orders\n    backend_group: orders\n")

def ordersMissing : GatewayConfig ℤ where
  rateLimitRefillPerSecond := 50
  backendGroups := [{ name := bytes "users", backends := [{ host := bytes "a", port := 9001 }] }]
  routes := [{ pathPrefix := bytes "/", backendGroup := bytes "users" },
    { pathPrefix := bytes "/orders", backendGroup := bytes "orders" }]

theorem ordersMissing_sized : ∀ group ∈ ordersMissing.backendGroups, group.backends.length < 2 ^ 64 := by
  decide

/-- The orders go to the users. -/
theorem routes_follow_config_ordersMissing :
    let g := buildRouter ordersMissing ordersMissing_sized fun _ => Router.mergeLonger
    loadFromFile stoi [] (some ordersMissingText) = .ok ordersMissing ∧
      Router.matchRoute g.routes (bytes "/orders/7") ≠ none ∧
      g.warnings = [Built.unknownGroup { pathPrefix := bytes "/orders", backendGroup := bytes "orders" }] := by
  have hload : loadFromFile stoi [] (some ordersMissingText) = .ok ordersMissing := by decide +kernel
  obtain ⟨-, -, hnone, -, hwarnings, -⟩ := routes_follow_config hload ordersMissing_sized
    (fun _ => Router.mergeLonger) (bytes "/orders/7")
  refine ⟨hload, fun h => ?_, hwarnings.trans (by decide)⟩
  exact hnone.mp h ⟨bytes "/", bytes "users", false⟩ (by decide) (.inl (by decide))
    _ List.mem_cons_self rfl

/-! ## Addresses never change -/

/-- Every backend that the worker's place in the code names. -/
def Stage.Names (P : BackendRef → Prop) : Stage → Prop
  | .idle => True
  | .picking _ (.drawing _) => True
  | .picking _ (.drawn _ _) => True
  | .picking call (.looking _ best) => ∀ i conns, best = some (i, conns) → P ⟨call.group, i⟩
  | .picking call (.loading j best) =>
    P ⟨call.group, j⟩ ∧ ∀ i conns, best = some (i, conns) → P ⟨call.group, i⟩
  | .picked call i => P ⟨call.group, i⟩
  | .admitted call i => P ⟨call.group, i⟩
  | .acquiring call i => P ⟨call.group, i⟩
  | .dialing call i => P ⟨call.group, i⟩
  | .exchanging call i _ => P ⟨call.group, i⟩
  | .exchanged call i _ _ => P ⟨call.group, i⟩
  | .settling call i _ _ => P ⟨call.group, i⟩
  | .succeeded call i _ _ _ => P ⟨call.group, i⟩
  | .failed call i => P ⟨call.group, i⟩

section Names

variable {P : BackendRef → Prop} (w : ℕ) (call : ForwardCall)

theorem names_endPick {result : Option ℕ} (h : ∀ i, result = some i → P ⟨call.group, i⟩) :
    (endPick w call result).1.Names P := by
  cases result with
  | none => trivial
  | some i => exact h i rfl

theorem names_startAttempt (groups : ℕ → LoadBalancer) : (startAttempt groups w call).1.Names P := by
  unfold startAttempt
  split
  · split
    · trivial
    · split
      · trivial
      · intro i conns h
        cases h
  · trivial

theorem names_look {lb : LoadBalancer} {j : ℕ} {best : Option (ℕ × ℤ)}
    (h : ∀ i conns, best = some (i, conns) → P ⟨call.group, i⟩) : (look lb w call j best).1.Names P := by
  unfold look
  split
  · exact h
  · refine names_endPick w call fun i hi => ?_
    obtain ⟨⟨i', conns⟩, hbest, rfl⟩ := Option.map_eq_some_iff.mp hi
    exact h i' conns hbest

/-- `pick` only returns backends that it has seen. -/
theorem names_scanStep {lb : LoadBalancer} (hlb : ∀ j, lb.isHealthy j = true → P ⟨call.group, j⟩) {scan : Scan}
    (h : (Stage.picking call scan).Names P) : (scanStep lb w call scan).2.1.Names P := by
  cases scan with
  | drawing i => trivial
  | drawn i idx =>
    rw [scanStep]
    split
    · rename_i hhealthy
      refine names_endPick w call fun i hi => ?_
      cases hi
      exact hlb idx hhealthy
    · split
      · trivial
      · exact names_endPick w call (by simp)
  | looking j best =>
    rw [scanStep]
    split
    · rename_i hhealthy
      exact ⟨hlb j hhealthy, h⟩
    · exact names_look w call h
  | loading j best =>
    obtain ⟨hj, hbest⟩ := h
    refine names_look w call fun i conns heq => ?_
    cases best with
    | none =>
      cases heq
      exact hj
    | some b =>
      dsimp only at heq
      split at heq
      · cases heq
        exact hj
      · cases heq
        exact hbest _ _ rfl

theorem names_endAttempt (gw : Gateway) (outcome : Option HttpResponse) :
    (gw.endAttempt w call outcome).1.Names P := by
  unfold Gateway.endAttempt
  split
  · trivial
  · exact names_startAttempt w _ _

end Names

/-- **The addresses are those of the beginning**, and only they are dialed. -/
structure Anchored (addresses : BackendRef → Option (Bytes × ℤ)) (gw : Gateway) (log : List Act) : Prop where
  fixed : ∀ b, (gw.backend b).map (fun b => (b.host, b.port)) = addresses b
  names : ∀ w, (gw.workers w).Names fun b => (addresses b).isSome = true
  dialed : ∀ fd host port, .dialed fd host port ∈ log → ∃ b, addresses b = some (host, port)

namespace Anchored

variable {addresses : BackendRef → Option (Bytes × ℤ)} {gw gw' : Gateway} {log acts : List Act} {w : ℕ}

/-- A worker moves on, and does not dial. -/
theorem goTo (h : Anchored addresses gw log) {next : Stage × List Act} (hworkers : gw'.workers = gw.workers)
    (hfixed : ∀ b, (gw'.backend b).map (fun b => (b.host, b.port)) = (gw.backend b).map fun b => (b.host, b.port))
    (hnames : next.1.Names fun b => (addresses b).isSome = true)
    (hacts : ∀ fd host port, .dialed fd host port ∈ next.2 → ∃ b, addresses b = some (host, port)) :
    Anchored addresses (gw'.goTo w next).1 (log ++ (gw'.goTo w next).2) where
  fixed b := (hfixed b).trans (h.fixed b)
  names u := by
    show (Function.update gw'.workers w next.1 u).Names _
    by_cases hu : u = w
    · rw [hu, Function.update_self]
      exact hnames
    · rw [Function.update_of_ne hu, hworkers]
      exact h.names u
  dialed fd host port hmem := by
    rcases List.mem_append.mp hmem with hmem | hmem
    · exact h.dialed fd host port hmem
    · exact hacts fd host port hmem

theorem fixed_modify (gw : Gateway) (group i : ℕ) {f : Backend → Backend}
    (hf : ∀ b, (f b).host = b.host ∧ (f b).port = b.port) (b : BackendRef) :
    ((gw.modify group i f).backend b).map (fun b => (b.host, b.port))
      = (gw.backend b).map fun b => (b.host, b.port) := by
  rw [Gateway.backend_modify]
  split
  · simp [Function.comp_def, hf]
  · rfl

/-- Only a backend that is there is healthy. -/
theorem known_of_isHealthy (h : Anchored addresses gw log) {group j : ℕ}
    (hj : (gw.groups group).isHealthy j = true) : (addresses ⟨group, j⟩).isSome = true := by
  rw [← h.fixed, Option.isSome_map]
  rw [LoadBalancer.isHealthy, Option.any_eq_true] at hj
  obtain ⟨b, hb, -⟩ := hj
  exact Option.isSome_iff_exists.mpr ⟨b, hb⟩

/-- The address that is dialed. -/
theorem address_of_known (h : Anchored addresses gw log) {group i : ℕ}
    (hi : (addresses ⟨group, i⟩).isSome = true) : addresses ⟨group, i⟩ = some (gw.address group i) := by
  rw [← h.fixed, Option.isSome_map] at hi
  obtain ⟨b, hb⟩ := Option.isSome_iff_exists.mp hi
  rw [← h.fixed, hb]
  rw [Gateway.backend] at hb
  simp only [Option.map_some, Gateway.address, hb, Option.getD_some]

theorem not_dialed_of_staysOutside {next : Stage × List Act} (h : StaysOutside w next) {fd : ℤ} {host : Bytes}
    {port : ℤ} (hmem : .dialed fd host port ∈ next.2) : ∃ b, addresses b = some (host, port) := by
  obtain ⟨group, result, heq⟩ := h.acts _ hmem
  cases heq

theorem step (h : Anchored addresses gw log) (w : ℕ) (input : Input) :
    Anchored addresses (gw.step w input).1 (log ++ (gw.step w input).2) := by
  have hnames := h.names w
  have hfixed : ∀ b, (gw.backend b).map (fun b => (b.host, b.port)) = (gw.backend b).map fun b => (b.host, b.port) :=
    fun _ => rfl
  cases hstage : gw.workers w with
  | idle => simpa [Gateway.step, hstage] using h
  | picking call scan =>
    rw [hstage] at hnames
    simp only [Gateway.step, hstage]
    refine h.goTo rfl (fun b => by rw [Gateway.backend_scan]) ?_ ?_
    · exact names_scanStep w call (fun j hj => h.known_of_isHealthy hj) hnames
    · exact fun _ _ _ => not_dialed_of_staysOutside (staysOutside_scanStep _ w call scan)
  | picked call i =>
    rw [hstage] at hnames
    simp only [Gateway.step, hstage]
    split
    · exact h.goTo rfl (fixed_modify gw _ _ fun _ => ⟨rfl, rfl⟩) hnames (by simp)
    · exact h.goTo rfl (fixed_modify gw _ _ fun _ => ⟨rfl, rfl⟩) (names_startAttempt w _ _)
        fun _ _ _ => not_dialed_of_staysOutside (staysOutside_startAttempt _ w call.next)
  | admitted call i =>
    rw [hstage] at hnames
    simp only [Gateway.step, hstage]
    exact h.goTo rfl (fixed_modify gw _ _ fun _ => ⟨rfl, rfl⟩) hnames (by simp)
  | acquiring call i =>
    rw [hstage] at hnames
    simp only [Gateway.step, hstage]
    split
    · exact h.goTo rfl hfixed hnames (by simp)
    · exact h.goTo rfl hfixed hnames (by simp)
  | dialing call i =>
    rw [hstage] at hnames
    simp only [Gateway.step, hstage]
    refine h.goTo rfl hfixed hnames fun fd host port hmem => ?_
    split at hmem
    · cases List.mem_singleton.mp hmem
      exact ⟨_, h.address_of_known hnames⟩
    · cases hmem
  | exchanging call i fd =>
    rw [hstage] at hnames
    simp only [Gateway.step, hstage]
    split
    · exact h.goTo rfl hfixed hnames (by simp)
    · exact h.goTo rfl hfixed hnames (by simp)
  | exchanged call i fd outcome =>
    rw [hstage] at hnames
    simp only [Gateway.step, hstage]
    exact h.goTo rfl (fixed_modify gw _ _ fun _ => ⟨rfl, rfl⟩) hnames (by simp)
  | settling call i fd outcome =>
    rw [hstage] at hnames
    cases outcome with
    | some result =>
      simp only [Gateway.step, hstage]
      exact h.goTo rfl (fixed_modify gw _ _ fun _ => ⟨rfl, rfl⟩) hnames (by simp)
    | none =>
      simp only [Gateway.step, hstage]
      exact h.goTo rfl hfixed hnames (by simp)
  | succeeded call i fd resp reusable =>
    simp only [Gateway.step, hstage]
    refine h.goTo rfl hfixed (names_endAttempt w call gw _) fun fd host port hmem => ?_
    rcases List.mem_append.mp hmem with hmem | hmem
    · simp at hmem
    · exact not_dialed_of_staysOutside (staysOutside_endAttempt gw w call _) hmem
  | failed call i =>
    simp only [Gateway.step, hstage]
    refine h.goTo rfl (fixed_modify gw _ _ fun _ => ⟨rfl, rfl⟩) (names_endAttempt w call _ _)
      fun fd host port hmem => ?_
    rcases List.mem_cons.mp hmem with heq | hmem
    · cases heq
    · exact not_dialed_of_staysOutside (staysOutside_endAttempt _ w call _) hmem

theorem move (h : Anchored addresses gw log) (e : Move) :
    Anchored addresses (gw.move e).1 (log ++ (gw.move e).2) := by
  cases e with
  | call u group attempts =>
    rw [Gateway.move]
    split
    · exact h.goTo rfl (fun _ => rfl) (names_startAttempt u _ _)
        fun _ _ _ => not_dialed_of_staysOutside (staysOutside_startAttempt _ u _)
    · simpa using h
  | step u input => exact h.step u input
  | health group i healthy =>
    rw [Gateway.move, List.append_nil]
    refine ⟨fun b => ?_, h.names, h.dialed⟩
    exact (fixed_modify gw group i (f := fun b => { b with healthy }) (fun _ => ⟨rfl, rfl⟩) b).trans (h.fixed b)
  | closeAll keys =>
    refine ⟨h.fixed, h.names, fun fd host port hmem => ?_⟩
    rcases List.mem_append.mp hmem with hmem | hmem
    · exact h.dialed fd host port hmem
    · simp [Gateway.move] at hmem

end Anchored

theorem Stage.Names.held {P : BackendRef → Prop} {stage : Stage} (h : stage.Names P) {fd : ℤ} {b : BackendRef}
    (hheld : stage.held = some (fd, b)) : P b := by
  unfold Stage.held at hheld
  split at hheld
  all_goals simp only [Option.ite_none_right_eq_some, Option.some.injEq, Prod.mk.injEq, reduceCtorEq] at hheld
  all_goals
    obtain ⟨-, -, rfl⟩ := hheld
    exact h

/-! ## Requests and their backends -/

namespace Built

/-- The load balancer that a pointer points to. -/
def group (g : Built) (i : ℕ) : LoadBalancer :=
  g.balancers.getD i { backends := [], size_lt := Nat.two_pow_pos 64 }

/-- The gateway when its constructor returns. -/
def start {δ : Type} (cfg : GatewayConfig δ) (g : Built) : Gateway :=
  Gateway.start g.group cfg.maxIdleConnsPerBackend

/-- The addresses of the backends. -/
def addresses (g : Built) (b : BackendRef) : Option (Bytes × ℤ) :=
  (g.group b.group).backends[b.index]?.map fun b => (b.host, b.port)

theorem anchored_start {δ : Type} (cfg : GatewayConfig δ) (g : Built) : Anchored g.addresses (g.start cfg) [] where
  fixed _ := rfl
  names _ := trivial
  dialed := by simp

end Built

/-- The addresses are those of the configuration. -/
theorem Grouped.exists_backend {δ : Type} {cfg : GatewayConfig δ} {groups : List BackendGroupConfig} {g : Built}
    (h : Grouped cfg groups g) {b : BackendRef} {host : Bytes} {port : ℤ} (hb : g.addresses b = some (host, port)) :
    ∃ group, groups[b.group]? = some group ∧ ∃ backend ∈ group.backends, backend.host = host ∧ backend.port = port := by
  have hbalancer := congrArg (·[b.group]?) h.balancers
  simp only [List.getElem?_map] at hbalancer
  rw [Built.addresses, Built.group, List.getD_eq_getElem?_getD] at hb
  cases hgroup : groups[b.group]? with
  | none =>
    rw [hgroup, Option.map_none, Option.map_eq_none_iff] at hbalancer
    rw [hbalancer] at hb
    simp at hb
  | some group =>
    rw [hgroup, Option.map_some, Option.map_eq_some_iff] at hbalancer
    obtain ⟨lb, hlb, heq⟩ := hbalancer
    rw [hlb, Option.getD_some, (Prod.mk.inj heq).1, List.getElem?_map, Option.map_map, Option.map_eq_some_iff] at hb
    obtain ⟨backend, hbackend, haddress⟩ := hb
    exact ⟨group, rfl, backend, List.mem_of_getElem? hbackend, Prod.mk.inj haddress⟩

/-- **Requests reach configured backends only.** In every run of the gateway that is built from a configuration, with
any interleaving of the workers, any outcomes of their calls and any verdicts of the health checker: every address
that is dialed is listed in the configuration; and while a worker forwards a request for a path, the descriptor that
it holds is connected to an address of a group whose name a route of the configuration gives that covers the path. -/
theorem requests_reach_configured_backends {δ : Type} (cfg : GatewayConfig δ)
    (hsize : ∀ group ∈ cfg.backendGroups, group.backends.length < 2 ^ 64)
    (sorts : ℕ → StdSort (Router.longer (β := ℕ))) (es : List Move)
    (hes : Reactive.Obeys Gateway.move Permitted ((buildRouter cfg hsize sorts).start cfg) [] es) :
    let g := buildRouter cfg hsize sorts
    let r := Reactive.run Gateway.move (g.start cfg) es
    (∀ fd host port, .dialed fd host port ∈ r.2 →
      ∃ group ∈ cfg.backendGroups, ∃ backend ∈ group.backends, backend.host = host ∧ backend.port = port) ∧
    ∀ w fd b path route, (r.1.workers w).held = some (fd, b) → Router.matchRoute g.routes path = some route →
      b.group = route.lb →
      ∃ rc ∈ cfg.routes, Router.Covers rc.pathPrefix path ∧ ∃ group ∈ cfg.backendGroups,
        group.name = rc.backendGroup ∧ ∃ backend ∈ group.backends,
          kernel r.2 fd = some (backend.host, backend.port) := by
  intro g r
  have hgrouped : Grouped cfg cfg.backendGroups g := grouped_buildRouter cfg sorts hsize
  have hanchored : Anchored g.addresses r.1 r.2 :=
    Reactive.run_invariant (g.anchored_start cfg) (fun _ _ e h => h.move e) es
  have howned : Owned r.1 r.2 := hes.invariant (fun _ _ _ h he => h.move he) (owned_start _ _)
  constructor
  · intro fd host port hdialed
    obtain ⟨b, hb⟩ := hanchored.dialed fd host port hdialed
    obtain ⟨group, hgroup, hbackend⟩ := hgrouped.exists_backend hb
    exact ⟨group, List.mem_of_getElem? hgroup, hbackend⟩
  · intro w fd b path route hheld hroute hgroup
    have haddress := hanchored.address_of_known ((hanchored.names w).held hheld)
    have hconn := howned.held w fd b hheld
    generalize r.1.address b.group b.index = address at haddress hconn
    obtain ⟨host, port⟩ := address
    obtain ⟨group, hat, backend, hbackend, hhost, hport⟩ := hgrouped.exists_backend haddress
    rw [routes_buildRouter] at hroute
    obtain ⟨hin, hcovers, -⟩ := Router.matchRoute_eq_some _ hroute
    obtain ⟨rc, hrc, hlookup, hpath, -⟩ := (mem_routeCalls_iff cfg sorts hsize route).mp hin
    obtain ⟨before, group', after, hsplit, hlength, hname, -⟩ := hgrouped.named _ _ hlookup
    -- the group of the route is the group of the backend
    obtain rfl : group = group' := by
      rw [hgroup, ← hlength, hsplit] at hat
      simpa using hat.symm
    refine ⟨rc, hrc, hpath ▸ hcovers, group, List.mem_of_getElem? hat, hname, backend, hbackend, ?_⟩
    rw [hconn, hhost, hport]

/-- A worker dials the backend of the users. -/
def dialsUsers : List Move := .call 0 0 1 :: List.replicate 6 (.step 0 { dialed := 7 })

theorem requests_reach_configured_backends_dialsUsers :
    let g := buildRouter ordersMissing ordersMissing_sized fun _ => Router.mergeLonger
    let r := Reactive.run Gateway.move (g.start ordersMissing) dialsUsers
    (r.1.workers 0).held = some (7, ⟨0, 0⟩) ∧ ∃ rc ∈ ordersMissing.routes,
      Router.Covers rc.pathPrefix (bytes "/orders/7") ∧ ∃ group ∈ ordersMissing.backendGroups,
        group.name = rc.backendGroup ∧ ∃ backend ∈ group.backends,
          kernel r.2 7 = some (backend.host, backend.port) := by
  have hes : Reactive.Obeys Gateway.move Permitted
      ((buildRouter ordersMissing ordersMissing_sized fun _ => Router.mergeLonger).start ordersMissing) [] dialsUsers :=
    ⟨trivial, trivial, trivial, trivial, trivial, trivial, .inr ⟨by decide, rfl⟩, trivial⟩
  have hheld : ((Reactive.run Gateway.move
      ((buildRouter ordersMissing ordersMissing_sized fun _ => Router.mergeLonger).start ordersMissing)
      dialsUsers).1.workers 0).held = some (7, ⟨0, 0⟩) := by decide
  have hroute : Router.matchRoute (buildRouter ordersMissing ordersMissing_sized fun _ => Router.mergeLonger).routes
      (bytes "/orders/7") = some ⟨bytes "/", 0, false⟩ := by decide +kernel
  obtain ⟨-, hreach⟩ := requests_reach_configured_backends ordersMissing ordersMissing_sized
    (fun _ => Router.mergeLonger) dialsUsers hes
  exact ⟨hheld, hreach 0 7 ⟨0, 0⟩ _ _ hheld hroute rfl⟩

end ApiGateway.Core
