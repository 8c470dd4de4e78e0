import ApiGateway.Common.Entries
import ApiGateway.Config.Layout

/-!
# The order of the keys in a list item

Groups, backends and routes are items of lists. The first line of an item stands behind `- ` and is read
by code of its own, which looks for one key only (`ItemKey.lead`); another key on that line is dropped, and
its setting keeps the default. The lines below it are read in any order.

A file is a list of sections here. What an item is read as depends on the entries it has and on the one
that comes first (`Item.texts`). If the entries are rearranged, it is read as before if the first key is
the same one, or if neither first line loses anything (`Item.agreeing_iff`), and two files are read alike
if that is so for all of their items (`fileConfig_eq_iff`). Which of them are accepted is the subject of
`ApiGateway.Config.Refusal`.

Reference: `GatewayConfig::loadFromFile` in `src/config/Config.cpp`, `config/gateway.yaml`.
-/

namespace ApiGateway.Config

open Str Http Entries

/-! ## Items -/

/-- A value as it may stand behind a key: there may be none. -/
def Text (v : Bytes) : Prop := v = [] ∨ Plain v

instance (v : Bytes) : Decidable (Text v) := inferInstanceAs (Decidable (_ ∨ _))

/-- `key: value`, or `key:` -/
def field (key value : Bytes) : Bytes := key ++ colon :: if value = [] then [] else sp :: value

/-- The keys of one kind of list item. -/
class ItemKey (κ : Type) where
  name : κ → Bytes
  /-- The key that is looked for on a first line. -/
  lead : κ
  Value : κ → Type
  /-- The value of a setting, from the text of its key or by default. -/
  read : (k : κ) → Option Bytes → Value k
  key_name : ∀ k, Key (name k)

/-- A list item: no key comes twice. -/
structure Item (κ : Type) where
  first : κ × Bytes
  rest : List (κ × Bytes)
  distinct : ((first :: rest).map Prod.fst).Nodup
  text : ∀ kv ∈ first :: rest, Text kv.2

namespace Item

section Keys

variable {κ : Type}

def entries (i : Item κ) : List (κ × Bytes) := i.first :: i.rest

/-- The same entries, in another order. -/
def Rearranged (i i' : Item κ) : Prop := i.entries.Perm i'.entries

theorem Rearranged.symm {i i' : Item κ} (h : i.Rearranged i') : i'.Rearranged i := List.Perm.symm h

theorem first_not_mem (i : Item κ) : i.first.1 ∉ i.rest.map Prod.fst :=
  (List.nodup_cons.mp i.distinct).1

section Collect

variable [DecidableEq κ]

/-- All that the entries say, whichever comes first. -/
def said (i : Item κ) : κ → Option Bytes := collect (fun _ => none) i.entries

theorem said_eq (i : Item κ) : i.said = put (collect (fun _ => none) i.rest) i.first :=
  collect_update i.first_not_mem _ _

theorem said_first (i : Item κ) : i.said i.first.1 = some i.first.2 := by
  rw [said_eq]
  exact Function.update_self _ _ _

theorem Rearranged.said_eq {i i' : Item κ} (h : i.Rearranged i') : i.said = i'.said :=
  collect_perm h i.distinct _

end Collect

variable [ItemKey κ]

/-- The mark stays on the first line, whichever key that line has. -/
def lines (indent : ℕ) (i : Item κ) : List Line :=
  ⟨indent, bytes "- " ++ field (ItemKey.name i.first.1) i.first.2⟩ ::
    i.rest.map fun kv => ⟨indent + 2, field (ItemKey.name kv.1) kv.2⟩

/-- The first line loses nothing: it has the key that is looked for there, or a text that says what holds
by default. -/
def Idle (i : Item κ) : Prop :=
  i.first.1 = ItemKey.lead ∨ ItemKey.read i.first.1 (some i.first.2) = ItemKey.read i.first.1 none

/-- The first lines lose the same. -/
def Agreeing (i i' : Item κ) : Prop := i.first.1 = i'.first.1 ∨ i.Idle ∧ i'.Idle

variable [DecidableEq κ]

/-- What a first line leaves behind. -/
def readFirst (kv : κ × Bytes) : κ → Option Bytes :=
  if kv.1 = ItemKey.lead then put (fun _ => none) kv else fun _ => none

/-- The texts that are read for the keys. -/
def texts (i : Item κ) : κ → Option Bytes := collect (readFirst i.first) i.rest

/-- All is read but the first line's key, if it is not the one that is looked for. -/
theorem texts_eq (i : Item κ) (k : κ) :
    i.texts k = if k = i.first.1 ∧ k ≠ ItemKey.lead then none else i.said k := by
  rw [texts, readFirst]
  split_ifs with hlead hlost hlost
  · exact absurd (hlost.1.trans hlead) hlost.2
  · rfl
  · rw [hlost.1]
    exact collect_of_not_mem i.first_not_mem _
  · have hk : k ≠ i.first.1 := fun heq => hlost ⟨heq, heq ▸ hlead⟩
    rw [said_eq, put, Function.update_of_ne hk]

/-- With an idle first line, the settings are those of all entries. -/
theorem Idle.read_texts {i : Item κ} (h : i.Idle) (k : κ) :
    ItemKey.read k (i.texts k) = ItemKey.read k (i.said k) := by
  rw [texts_eq]
  split_ifs with hlost
  · obtain ⟨rfl, hlead⟩ := hlost
    rw [said_first, h.resolve_left hlead]
  · rfl

/-- If the first lines have different keys, what one of them loses is read in the other item. -/
theorem Rearranged.idle {i i' : Item κ} (h : i.Rearranged i') (hne : i.first.1 ≠ i'.first.1)
    (hread : ItemKey.read i.first.1 (i.texts i.first.1) = ItemKey.read i.first.1 (i'.texts i.first.1)) :
    i.Idle := by
  by_cases hlead : i.first.1 = ItemKey.lead
  · exact .inl hlead
  · rw [texts_eq, if_pos ⟨rfl, hlead⟩, texts_eq, if_neg fun hlost => hne hlost.1, ← h.said_eq,
      said_first] at hread
    exact .inr hread.symm

/-- **When an item may be rearranged.** -/
theorem agreeing_iff {i i' : Item κ} (h : i.Rearranged i') :
    (∀ k, ItemKey.read k (i.texts k) = ItemKey.read k (i'.texts k)) ↔ i.Agreeing i' := by
  constructor
  · intro hread
    by_cases hfirst : i.first.1 = i'.first.1
    · exact .inl hfirst
    · exact .inr ⟨h.idle hfirst (hread _), h.symm.idle (Ne.symm hfirst) (hread _).symm⟩
  · rintro (hfirst | ⟨hidle, hidle'⟩) k
    · rw [texts_eq, texts_eq, hfirst, h.said_eq]
    · rw [hidle.read_texts, hidle'.read_texts, h.said_eq]

end Keys

end Item

/-! ## Groups, backends and routes -/

inductive BackendKey where
  | host | port
deriving DecidableEq, Repr

inductive GroupKey where
  | name | strategy
deriving DecidableEq, Repr

inductive RouteKey where
  | pathPrefix | backendGroup | cacheable
deriving DecidableEq, Repr

instance : ItemKey BackendKey where
  name
    | .host => bytes "host"
    | .port => bytes "port"
  lead := .host
  Value
    | .host => Bytes
    | .port => ℤ
  read
    | .host, text => text.getD []
    | .port, text => text.elim 0 fun v => toInt v 0
  key_name k := by
    cases k
    all_goals decide

instance : ItemKey GroupKey where
  name
    | .name => bytes "name"
    | .strategy => bytes "strategy"
  lead := .name
  Value _ := Bytes
  read
    | .name, text => text.getD []
    | .strategy, text => text.getD (bytes "round_robin")
  key_name k := by
    cases k
    all_goals decide

instance : ItemKey RouteKey where
  name
    | .pathPrefix => bytes "path_prefix"
    | .backendGroup => bytes "backend_group"
    | .cacheable => bytes "cacheable"
  lead := .pathPrefix
  Value
    | .pathPrefix => Bytes
    | .backendGroup => Bytes
    | .cacheable => Bool
  read
    | .pathPrefix, text => text.getD []
    | .backendGroup, text => text.getD []
    | .cacheable, text => text.elim false fun v => v = bytes "true"
  key_name k := by
    cases k
    all_goals decide

def backendOf (texts : BackendKey → Option Bytes) : BackendConfig where
  host := ItemKey.read BackendKey.host (texts .host)
  port := ItemKey.read BackendKey.port (texts .port)

def groupOf (texts : GroupKey → Option Bytes) (backends : List BackendConfig) : BackendGroupConfig where
  name := ItemKey.read GroupKey.name (texts .name)
  strategy := ItemKey.read GroupKey.strategy (texts .strategy)
  backends := backends

def routeOf (texts : RouteKey → Option Bytes) : RouteConfig where
  pathPrefix := ItemKey.read RouteKey.pathPrefix (texts .pathPrefix)
  backendGroup := ItemKey.read RouteKey.backendGroup (texts .backendGroup)
  cacheable := ItemKey.read RouteKey.cacheable (texts .cacheable)

theorem backendOf_eq_iff {f f' : BackendKey → Option Bytes} :
    backendOf f = backendOf f' ↔ ∀ k, ItemKey.read k (f k) = ItemKey.read k (f' k) := by
  constructor
  · intro h k
    cases k with
    | host => exact congrArg BackendConfig.host h
    | port => exact congrArg BackendConfig.port h
  · intro h
    rw [backendOf, h, h]
    rfl

theorem groupOf_eq_iff {f f' : GroupKey → Option Bytes} {backends backends' : List BackendConfig} :
    groupOf f backends = groupOf f' backends'
      ↔ (∀ k, ItemKey.read k (f k) = ItemKey.read k (f' k)) ∧ backends = backends' := by
  constructor
  · intro h
    refine ⟨fun k => ?_, congrArg BackendGroupConfig.backends h⟩
    cases k with
    | name => exact congrArg BackendGroupConfig.name h
    | strategy => exact congrArg BackendGroupConfig.strategy h
  · rintro ⟨h, rfl⟩
    rw [groupOf, h, h]
    rfl

theorem routeOf_eq_iff {f f' : RouteKey → Option Bytes} :
    routeOf f = routeOf f' ↔ ∀ k, ItemKey.read k (f k) = ItemKey.read k (f' k) := by
  constructor
  · intro h k
    cases k with
    | pathPrefix => exact congrArg RouteConfig.pathPrefix h
    | backendGroup => exact congrArg RouteConfig.backendGroup h
    | cacheable => exact congrArg RouteConfig.cacheable h
  · intro h
    rw [routeOf, h, h, h]
    rfl

/-- A group, with its backends below its own keys. -/
structure GroupItem where
  keys : Item GroupKey
  backends : List (Item BackendKey)

namespace GroupItem

def lines (g : GroupItem) : List Line :=
  g.keys.lines 2 ++ header 4 (bytes "backends") :: g.backends.flatMap (Item.lines 6)

/-- What a group is read as. -/
def config (g : GroupItem) : BackendGroupConfig :=
  groupOf g.keys.texts (g.backends.map fun i => backendOf i.texts)

structure Rearranged (g g' : GroupItem) : Prop where
  keys : g.keys.Rearranged g'.keys
  backends : List.Forall₂ Item.Rearranged g.backends g'.backends

structure Agreeing (g g' : GroupItem) : Prop where
  keys : g.keys.Agreeing g'.keys
  backends : List.Forall₂ Item.Agreeing g.backends g'.backends

theorem config_eq_iff {g g' : GroupItem} (h : g.Rearranged g') : g.config = g'.config ↔ g.Agreeing g' := by
  have hbackends : (g.backends.map fun i => backendOf i.texts) = (g'.backends.map fun i => backendOf i.texts)
      ↔ List.Forall₂ Item.Agreeing g.backends g'.backends := by
    rw [← List.forall₂_eq_eq_eq, List.forall₂_map_left_iff, List.forall₂_map_right_iff]
    exact forall₂_iff h.backends fun i i' hi => backendOf_eq_iff.trans (Item.agreeing_iff hi)
  rw [config, config, groupOf_eq_iff, Item.agreeing_iff h.keys, hbackends]
  exact ⟨fun h => ⟨h.1, h.2⟩, fun h => ⟨h.keys, h.backends⟩⟩

end GroupItem

/-! ## Reading an item -/

theorem splitKv_field {key value : Bytes} (hkey : Key key) (hvalue : Text value) :
    splitKv (field key value) = (key, value) := by
  rcases hvalue with rfl | hvalue
  · exact splitKv_header hkey
  · rw [field, if_neg hvalue.ne_nil]
    exact splitKv_entry hkey hvalue

theorem plain_field {key value : Bytes} (hkey : Key key) (hvalue : Text value) :
    Plain (field key value) := by
  rcases hvalue with rfl | hvalue
  · exact plain_header hkey
  · rw [field, if_neg hvalue.ne_nil]
    exact plain_entry hkey hvalue

theorem Item.plain_lines {κ : Type} [ItemKey κ] (i : Item κ) (indent : ℕ) :
    ∀ ln ∈ i.lines indent, Plain ln.content := by
  have htext := List.forall_mem_cons.mp i.text
  rw [Item.lines, List.forall_mem_cons]
  refine ⟨plain_dash (plain_field (ItemKey.key_name _) htext.1), fun ln hln => ?_⟩
  obtain ⟨kv, hkv, rfl⟩ := List.mem_map.mp hln
  exact plain_field (ItemKey.key_name _) (htext.2 kv hkv)

section Reading

variable {δ : Type} {stod : Bytes → Option δ}

/-- An item, given what its first line and each of the others do. -/
theorem readLines_item {κ : Type} [ItemKey κ] [DecidableEq κ] {indent : ℕ} {ctx : Context δ}
    (filled : (κ → Option Bytes) → Context δ)
    (hfirst : ∀ kv : κ × Bytes, Text kv.2 →
      readLine stod ctx ⟨indent, bytes "- " ++ field (ItemKey.name kv.1) kv.2⟩ = filled (Item.readFirst kv))
    (hrest : ∀ (f : κ → Option Bytes) (kv : κ × Bytes), Text kv.2 →
      readLine stod (filled f) ⟨indent + 2, field (ItemKey.name kv.1) kv.2⟩ = filled (put f kv))
    (i : Item κ) : readLines stod ctx (i.lines indent) = filled i.texts := by
  have htext := List.forall_mem_cons.mp i.text
  have hloop : ∀ (l : List (κ × Bytes)) (f : κ → Option Bytes), (∀ kv ∈ l, Text kv.2) →
      readLines stod (filled f) (l.map fun kv => ⟨indent + 2, field (ItemKey.name kv.1) kv.2⟩)
        = filled (collect f l) := by
    intro l
    induction l with
    | nil => exact fun f _ => rfl
    | cons kv l ih =>
      intro f hl
      rw [List.forall_mem_cons] at hl
      rw [List.map_cons, readLines, List.foldl_cons, hrest f kv hl.1]
      exact ih (put f kv) hl.2
  rw [Item.lines, readLines, List.foldl_cons, hfirst i.first htext.1]
  exact hloop i.rest _ htext.2

theorem readLines_groupKeys {ctx : Context δ} (h : AtGroups ctx) (i : Item GroupKey) :
    readLines stod ctx (i.lines 2) = inGroup ctx.cfg (groupOf i.texts []) false := by
  refine readLines_item (fun f => inGroup ctx.cfg (groupOf f []) false) ?_ ?_ i
  · rintro ⟨k, v⟩ hv
    rw [readLine_groupItem h, splitKv_field (ItemKey.key_name k) hv]
    cases k
    all_goals rfl
  · rintro f ⟨k, v⟩ hv
    have hitem : isListItem ⟨2 + 2, field (ItemKey.name k) v⟩ = false := by
      cases k
      all_goals rfl
    rw [readLine_groupKey ctx.cfg _ false (by simp) hitem, splitKv_field (ItemKey.key_name k) hv]
    cases k
    all_goals exact setGroup_inGroup ctx.cfg _ false _

theorem readLines_backendItem (cfg : GatewayConfig δ) (group : BackendGroupConfig) (i : Item BackendKey) :
    readLines stod (inGroup cfg group true) (i.lines 6)
      = inGroup cfg { group with backends := group.backends ++ [backendOf i.texts] } true := by
  refine readLines_item
    (fun f => inGroup cfg { group with backends := group.backends ++ [backendOf f] } true) ?_ ?_ i
  · rintro ⟨k, v⟩ hv
    rw [readLine_backendItem, splitKv_field (ItemKey.key_name k) hv]
    cases k
    all_goals rfl
  · rintro f ⟨k, v⟩ hv
    have hitem : isListItem ⟨6 + 2, field (ItemKey.name k) v⟩ = false := by
      cases k
      all_goals rfl
    rw [readLine_groupKey cfg _ true (by simp) hitem, splitKv_field (ItemKey.key_name k) hv]
    -- the item that is being filled in is the last one of its group
    cases k
    all_goals
      refine (setGroup_inGroup cfg _ true _).trans ?_
      rw [setBack_concat]
      rfl

theorem readLines_routeItem {ctx : Context δ} (h : AtRoutes ctx) (i : Item RouteKey) :
    readLines stod ctx (i.lines 2) = inRoute ctx.cfg (routeOf i.texts) := by
  refine readLines_item (fun f => inRoute ctx.cfg (routeOf f)) ?_ ?_ i
  · rintro ⟨k, v⟩ hv
    rw [readLine_routeItem h, splitKv_field (ItemKey.key_name k) hv]
    cases k
    all_goals rfl
  · rintro f ⟨k, v⟩ hv
    have hitem : isListItem ⟨2 + 2, field (ItemKey.name k) v⟩ = false := by
      cases k
      all_goals rfl
    rw [readLine_routeKey ctx.cfg _ (by simp) hitem, splitKv_field (ItemKey.key_name k) hv]
    cases k
    all_goals exact setRoute_inRoute ctx.cfg _ _

theorem readLines_backendItems (cfg : GatewayConfig δ) (items : List (Item BackendKey))
    (group : BackendGroupConfig) :
    readLines stod (inGroup cfg group true) (items.flatMap (Item.lines 6))
      = inGroup cfg
          { group with backends := group.backends ++ items.map fun i => backendOf i.texts } true := by
  induction items generalizing group with
  | nil => rw [List.map_nil, List.append_nil]; rfl
  | cons i items ih =>
    rw [List.flatMap_cons, readLines_append, readLines_backendItem, ih, List.map_cons, List.append_assoc,
      List.singleton_append]

theorem readLines_groupItem {ctx : Context δ} (h : AtGroups ctx) (g : GroupItem) :
    readLines stod ctx g.lines = inGroup ctx.cfg g.config true := by
  rw [GroupItem.lines, readLines_append, readLines_groupKeys h, readLines, List.foldl_cons,
    readLine_backends]
  exact readLines_backendItems ctx.cfg g.backends (groupOf g.keys.texts [])

theorem readLines_groupItems (groups : List GroupItem) {ctx : Context δ} (h : AtGroups ctx) :
    (readLines stod ctx (groups.flatMap GroupItem.lines)).cfg
      = { ctx.cfg with backendGroups := ctx.cfg.backendGroups ++ groups.map GroupItem.config } := by
  induction groups generalizing ctx with
  | nil => rw [List.map_nil, List.append_nil]; rfl
  | cons g groups ih =>
    rw [List.flatMap_cons, readLines_append, readLines_groupItem h,
      ih (atGroups_inGroup ctx.cfg g.config true)]
    simp only [inGroup, List.map_cons, List.append_assoc, List.singleton_append]

theorem readLines_routeItems (routes : List (Item RouteKey)) {ctx : Context δ} (h : AtRoutes ctx) :
    (readLines stod ctx (routes.flatMap (Item.lines 2))).cfg
      = { ctx.cfg with routes := ctx.cfg.routes ++ routes.map fun i => routeOf i.texts } := by
  induction routes generalizing ctx with
  | nil => rw [List.map_nil, List.append_nil]; rfl
  | cons i routes ih =>
    rw [List.flatMap_cons, readLines_append, readLines_routeItem h,
      ih (atRoutes_inRoute ctx.cfg (routeOf i.texts))]
    simp only [inRoute, List.map_cons, List.append_assoc, List.singleton_append]

end Reading

/-! ## Files -/

/-- A section without a list: a line at the margin, and what stands below it. -/
structure Settings where
  top : Line
  below : List Line
  top_indent : top.indent = 0
  below_indent : ∀ ln ∈ below, ln.indent ≠ 0
  plain : ∀ ln ∈ top :: below, Plain ln.content
  no_list : (splitKv top.content).1 ≠ bytes "backend_groups" ∧ (splitKv top.content).1 ≠ bytes "routes"

inductive Section where
  | settings (s : Settings)
  | groups (items : List GroupItem)
  | routes (items : List (Item RouteKey))

namespace Section

def lines : Section → List Line
  | .settings s => s.top :: s.below
  | .groups items => header 0 (bytes "backend_groups") :: items.flatMap GroupItem.lines
  | .routes items => header 0 (bytes "routes") :: items.flatMap (Item.lines 2)

def groupItems : Section → List GroupItem
  | .groups items => items
  | _ => []

def routeItems : Section → List (Item RouteKey)
  | .routes items => items
  | _ => []

/-- Entries of list items stand in another order; all else is the same. -/
inductive Rearranged : Section → Section → Prop
  | settings (s : Settings) : Rearranged (.settings s) (.settings s)
  | groups {items items' : List GroupItem} (h : List.Forall₂ GroupItem.Rearranged items items') :
      Rearranged (.groups items) (.groups items')
  | routes {items items' : List (Item RouteKey)} (h : List.Forall₂ Item.Rearranged items items') :
      Rearranged (.routes items) (.routes items')

theorem plain_lines (s : Section) : ∀ ln ∈ s.lines, Plain ln.content := by
  cases s with
  | settings s => exact s.plain
  | groups items =>
    rw [lines, List.forall_mem_cons, List.forall_mem_flatMap]
    refine ⟨plain_header (by decide), fun g _ => ?_⟩
    rw [GroupItem.lines, List.forall_mem_append, List.forall_mem_cons, List.forall_mem_flatMap]
    exact ⟨g.keys.plain_lines 2, plain_header (by decide), fun i _ => i.plain_lines 6⟩
  | routes items =>
    rw [lines, List.forall_mem_cons, List.forall_mem_flatMap]
    exact ⟨plain_header (by decide), fun i _ => i.plain_lines 2⟩

end Section

/-- The items that correspond to each other agree. -/
structure Agreeing (file file' : List Section) : Prop where
  groups :
    List.Forall₂ GroupItem.Agreeing (file.flatMap Section.groupItems) (file'.flatMap Section.groupItems)
  routes : List.Forall₂ Item.Agreeing (file.flatMap Section.routeItems) (file'.flatMap Section.routeItems)

/-! ## What a file is read as -/

section Files

variable {δ : Type}

/-- Other groups and routes, and the same settings. -/
def GatewayConfig.withLists (cfg : GatewayConfig δ) (groups : List BackendGroupConfig)
    (routes : List RouteConfig) : GatewayConfig δ :=
  { cfg with backendGroups := groups, routes := routes }

/-- Other groups and routes, at the same place of the file. -/
def Context.withLists (ctx : Context δ) (groups : List BackendGroupConfig) (routes : List RouteConfig) :
    Context δ :=
  { ctx with cfg := ctx.cfg.withLists groups routes }

theorem withLists_inj {cfg : GatewayConfig δ} {groups groups' : List BackendGroupConfig}
    {routes routes' : List RouteConfig} :
    cfg.withLists groups routes = cfg.withLists groups' routes' ↔ groups = groups' ∧ routes = routes' :=
  ⟨fun h => ⟨congrArg GatewayConfig.backendGroups h, congrArg GatewayConfig.routes h⟩,
    by rintro ⟨rfl, rfl⟩; rfl⟩

variable (stod : Bytes → Option δ)

/-- What the lines of a section without a list set. -/
def Settings.assign (s : Settings) (cfg : GatewayConfig δ) : GatewayConfig δ :=
  (readLines stod { cfg } (s.top :: s.below)).cfg

/-- What a section sets, or adds. -/
def Section.assign (cfg : GatewayConfig δ) : Section → GatewayConfig δ
  | .settings s => s.assign stod cfg
  | .groups items => { cfg with backendGroups := cfg.backendGroups ++ items.map GroupItem.config }
  | .routes items => { cfg with routes := cfg.routes ++ items.map fun i => routeOf i.texts }

/-- The configuration that is checked in the end. -/
def fileConfig [NatCast δ] (file : List Section) : GatewayConfig δ :=
  file.foldl (Section.assign stod) { rateLimitRefillPerSecond := (50 : ℕ) }

/-- The settings without the lists. -/
def Section.assignSettings (cfg : GatewayConfig δ) : Section → GatewayConfig δ
  | .settings s => s.assign stod cfg
  | _ => cfg

variable {stod}

/-- The sections of settings, one by one. -/
theorem settings_cases {motive : Bytes → (Bytes → Bytes → GatewayConfig δ → GatewayConfig δ) → Prop}
    (listen : motive (bytes "listen") readListen)
    (rateLimit : motive (bytes "rate_limit") (readRateLimit stod))
    (cache : motive (bytes "cache") readCache)
    (circuitBreaker : motive (bytes "circuit_breaker") readCircuitBreaker)
    (retry : motive (bytes "retry") readRetry)
    (connection : motive (bytes "connection") readConnection)
    (healthCheck : motive (bytes "health_check") readHealthCheck) {name : Bytes}
    {read : Bytes → Bytes → GatewayConfig δ → GatewayConfig δ} (h : settings stod name = some read) :
    motive name read := by
  have hite {n : Bytes} {r : Bytes → Bytes → GatewayConfig δ → GatewayConfig δ}
      {o : Option (Bytes → Bytes → GatewayConfig δ → GatewayConfig δ)} (hr : motive n r)
      (ho : o = some read → motive name read) (h : (if name = n then some r else o) = some read) :
      motive name read := by
    by_cases hname : name = n
    · rw [if_pos hname, Option.some_inj] at h
      rwa [hname, ← h]
    · rw [if_neg hname] at h
      exact ho h
  have hnone (h : none = some read) : motive name read := by cases h
  exact hite listen (hite rateLimit (hite cache (hite circuitBreaker (hite retry (hite connection
    (hite healthCheck hnone)))))) h

theorem settings_withLists {name : Bytes} {read : Bytes → Bytes → GatewayConfig δ → GatewayConfig δ}
    (hread : settings stod name = some read) (key val : Bytes) (cfg : GatewayConfig δ)
    (groups : List BackendGroupConfig) (routes : List RouteConfig) :
    read key val (cfg.withLists groups routes) = (read key val cfg).withLists groups routes := by
  refine settings_cases (motive := fun _ read =>
    read key val (cfg.withLists groups routes) = (read key val cfg).withLists groups routes)
    ?_ ?_ ?_ ?_ ?_ ?_ ?_ hread
  · rw [readListen, readListen]
    split_ifs
    all_goals rfl
  · rw [readRateLimit, readRateLimit]
    split_ifs
    all_goals rfl
  · rw [readCache, readCache]
    split_ifs
    all_goals rfl
  · rw [readCircuitBreaker, readCircuitBreaker]
    split_ifs
    all_goals rfl
  · rw [readRetry, readRetry]
    split_ifs
    all_goals rfl
  · rw [readConnection, readConnection]
    split_ifs
    all_goals rfl
  · rw [readHealthCheck, readHealthCheck]
    split_ifs
    all_goals rfl

/-- Outside the lists, a line neither sees nor changes them. -/
theorem readLine_withLists {ctx : Context δ} (hgroups : ctx.sectionName ≠ bytes "backend_groups")
    (hroutes : ctx.sectionName ≠ bytes "routes") {ln : Line} (hindent : ln.indent ≠ 0)
    (groups : List BackendGroupConfig) (routes : List RouteConfig) :
    readLine stod (ctx.withLists groups routes) ln = (readLine stod ctx ln).withLists groups routes ∧
      (readLine stod ctx ln).sectionName = ctx.sectionName := by
  cases hread : settings stod ctx.sectionName with
  | some read =>
    simp only [readLine, if_neg hindent, Context.withLists, hread, settings_withLists hread, and_self]
  | none =>
    simp only [readLine, if_neg hindent, Context.withLists, hread, hgroups, hroutes, if_false, and_self]

theorem readLines_withLists {lines : List Line} (hindent : ∀ ln ∈ lines, ln.indent ≠ 0) {ctx : Context δ}
    (hgroups : ctx.sectionName ≠ bytes "backend_groups") (hroutes : ctx.sectionName ≠ bytes "routes")
    (groups : List BackendGroupConfig) (routes : List RouteConfig) :
    readLines stod (ctx.withLists groups routes) lines
      = (readLines stod ctx lines).withLists groups routes := by
  induction lines generalizing ctx with
  | nil => rfl
  | cons ln lines ih =>
    rw [List.forall_mem_cons] at hindent
    obtain ⟨hline, hname⟩ : readLine stod (ctx.withLists groups routes) ln = _ ∧ _ :=
      readLine_withLists hgroups hroutes hindent.1 groups routes
    rw [readLines, List.foldl_cons, hline]
    exact ih hindent.2 (hname ▸ hgroups) (hname ▸ hroutes)

/-- A section without a list leaves the lists alone. -/
theorem Settings.assign_withLists (s : Settings) (cfg : GatewayConfig δ)
    (groups : List BackendGroupConfig) (routes : List RouteConfig) :
    s.assign stod (cfg.withLists groups routes) = (s.assign stod cfg).withLists groups routes := by
  have htop : ∀ cfg : GatewayConfig δ, readLine stod { cfg } s.top = readTopLevel { cfg } s.top :=
    fun cfg => by rw [readLine, if_pos s.top_indent]
  have hlists : readTopLevel { cfg := cfg.withLists groups routes } s.top
      = (readTopLevel { cfg } s.top).withLists groups routes := by
    simp only [readTopLevel]
    split_ifs
    all_goals rfl
  have hname : (readTopLevel { cfg } s.top).sectionName = [] ∨
      (readTopLevel { cfg } s.top).sectionName = (splitKv s.top.content).1 := by
    simp only [readTopLevel]
    split_ifs
    · exact .inl rfl
    · exact .inl rfl
    · exact .inr rfl
  rw [Settings.assign, readLines, List.foldl_cons, htop, hlists, Settings.assign, readLines, List.foldl_cons,
    htop]
  refine congrArg Context.cfg (readLines_withLists s.below_indent ?_ ?_ groups routes)
  · rcases hname with hname | hname
    · rw [hname]
      decide
    · exact hname ▸ s.no_list.1
  · rcases hname with hname | hname
    · rw [hname]
      decide
    · exact hname ▸ s.no_list.2

theorem foldl_section_assign (file : List Section) (cfg : GatewayConfig δ)
    (groups : List BackendGroupConfig) (routes : List RouteConfig) :
    file.foldl (Section.assign stod) (cfg.withLists groups routes)
      = (file.foldl (Section.assignSettings stod) cfg).withLists
          (groups ++ (file.flatMap Section.groupItems).map GroupItem.config)
          (routes ++ (file.flatMap Section.routeItems).map fun i => routeOf i.texts) := by
  induction file generalizing cfg groups routes with
  | nil => simp only [List.foldl_nil, List.flatMap_nil, List.map_nil, List.append_nil]
  | cons s file ih =>
    simp only [List.foldl_cons, List.flatMap_cons, List.map_append, ← List.append_assoc]
    cases s with
    | settings s =>
      rw [Section.assign, s.assign_withLists, ih]
      simp only [Section.groupItems, Section.routeItems, List.map_nil, List.append_nil]
      rfl
    | groups items =>
      refine (ih cfg (groups ++ items.map GroupItem.config) routes).trans ?_
      simp only [Section.groupItems, Section.routeItems, List.map_nil, List.append_nil]
      rfl
    | routes items =>
      refine (ih cfg groups (routes ++ items.map fun i => routeOf i.texts)).trans ?_
      simp only [Section.groupItems, Section.routeItems, List.map_nil, List.append_nil]
      rfl

theorem foldl_assignSettings {file file' : List Section} (h : List.Forall₂ Section.Rearranged file file')
    (cfg : GatewayConfig δ) :
    file.foldl (Section.assignSettings stod) cfg = file'.foldl (Section.assignSettings stod) cfg := by
  induction h generalizing cfg with
  | nil => rfl
  | cons hs _ ih =>
    rw [List.foldl_cons, List.foldl_cons, ih]
    cases hs
    all_goals rfl

theorem forall₂_groupItems {file file' : List Section} (h : List.Forall₂ Section.Rearranged file file') :
    List.Forall₂ GroupItem.Rearranged (file.flatMap Section.groupItems)
      (file'.flatMap Section.groupItems) := by
  refine List.rel_flatMap h ?_
  rintro s s' (_ | hitems | _)
  · exact .nil
  · exact hitems
  · exact .nil

theorem forall₂_routeItems {file file' : List Section} (h : List.Forall₂ Section.Rearranged file file') :
    List.Forall₂ Item.Rearranged (file.flatMap Section.routeItems) (file'.flatMap Section.routeItems) := by
  refine List.rel_flatMap h ?_
  rintro s s' (_ | _ | hitems)
  · exact .nil
  · exact .nil
  · exact hitems

/-- The items of a file are read one by one. -/
theorem fileConfig_lists [NatCast δ] (file : List Section) :
    fileConfig stod file
      = (file.foldl (Section.assignSettings stod) { rateLimitRefillPerSecond := ((50 : ℕ) : δ) }).withLists
          ((file.flatMap Section.groupItems).map GroupItem.config)
          ((file.flatMap Section.routeItems).map fun i => routeOf i.texts) :=
  foldl_section_assign file { rateLimitRefillPerSecond := ((50 : ℕ) : δ) } [] []

theorem fileConfig_eq_iff [NatCast δ] {file file' : List Section}
    (h : List.Forall₂ Section.Rearranged file file') :
    fileConfig stod file = fileConfig stod file' ↔ Agreeing file file' := by
  have hgroups : (file.flatMap Section.groupItems).map GroupItem.config
      = (file'.flatMap Section.groupItems).map GroupItem.config
        ↔ List.Forall₂ GroupItem.Agreeing (file.flatMap Section.groupItems)
            (file'.flatMap Section.groupItems) := by
    rw [← List.forall₂_eq_eq_eq, List.forall₂_map_left_iff, List.forall₂_map_right_iff]
    exact forall₂_iff (forall₂_groupItems h) fun g g' hg => GroupItem.config_eq_iff hg
  have hroutes : ((file.flatMap Section.routeItems).map fun i => routeOf i.texts)
      = ((file'.flatMap Section.routeItems).map fun i => routeOf i.texts)
        ↔ List.Forall₂ Item.Agreeing (file.flatMap Section.routeItems)
            (file'.flatMap Section.routeItems) := by
    rw [← List.forall₂_eq_eq_eq, List.forall₂_map_left_iff, List.forall₂_map_right_iff]
    exact forall₂_iff (forall₂_routeItems h) fun i i' hi => routeOf_eq_iff.trans (Item.agreeing_iff hi)
  rw [fileConfig_lists, fileConfig_lists, foldl_assignSettings h, withLists_inj, hgroups, hroutes]
  exact ⟨fun h => ⟨h.1, h.2⟩, fun h => ⟨h.groups, h.routes⟩⟩

theorem readLines_section (s : Section) (ctx : Context δ) :
    (readLines stod ctx s.lines).cfg = s.assign stod ctx.cfg := by
  cases s with
  | settings s =>
    rw [Section.lines, readLines, List.foldl_cons, Section.assign, Settings.assign, readLines,
      List.foldl_cons, readLine, if_pos s.top_indent, readLine, if_pos s.top_indent]
    rfl
  | groups items =>
    rw [Section.lines, readLines, List.foldl_cons, readLine_header (by decide) (by decide) (by decide)]
    exact readLines_groupItems items ⟨rfl, .inl rfl, rfl, rfl⟩
  | routes items =>
    rw [Section.lines, readLines, List.foldl_cons, readLine_header (by decide) (by decide) (by decide)]
    exact readLines_routeItems items ⟨rfl, .inl rfl, rfl, rfl, rfl⟩

theorem readLines_sections (file : List Section) (ctx : Context δ) :
    (readLines stod ctx (file.flatMap Section.lines)).cfg = file.foldl (Section.assign stod) ctx.cfg := by
  induction file generalizing ctx with
  | nil => rfl
  | cons s file ih => rw [List.flatMap_cons, readLines_append, ih, readLines_section, List.foldl_cons]

variable [NatCast δ] [LE δ] [DecidableLE δ]

/-- A configuration that has been read, after its validation. -/
def checked (cfg : GatewayConfig δ) : Except Bytes (GatewayConfig δ) := do
  validate cfg
  return cfg

theorem checked_eq_ok_iff {cfg c : GatewayConfig δ} :
    checked cfg = .ok c ↔ validate cfg = .ok () ∧ c = cfg := by
  rw [checked]
  cases validate cfg with
  | ok _ => exact ⟨fun h => ⟨rfl, (Except.ok.inj h).symm⟩, fun h => congrArg Except.ok h.2.symm⟩
  | error e =>
    constructor
    · intro h
      cases h
    · rintro ⟨h, -⟩
      cases h

theorem exists_checked_eq_error_iff {cfg : GatewayConfig δ} :
    (∃ e, checked cfg = .error e) ↔ validate cfg ≠ .ok () := by
  rw [checked]
  cases validate cfg with
  | ok _ =>
    refine ⟨?_, fun h => absurd rfl h⟩
    rintro ⟨e, h⟩
    cases h
  | error e =>
    refine ⟨fun _ h => ?_, fun _ => ⟨e, rfl⟩⟩
    cases h

theorem loadFromFile_sections (file : List Section) {text : Bytes}
    (htext : Renders (file.flatMap Section.lines) text) (path : Bytes) :
    loadFromFile stod path (some text) = checked (fileConfig stod file) := by
  have hplain : ∀ ln ∈ file.flatMap Section.lines, Plain ln.content := by
    rw [List.forall_mem_flatMap]
    exact fun s _ => s.plain_lines
  simp only [loadFromFile, tokenize_of_renders htext hplain, readLines_sections]
  rfl

/-- The same configuration, or an error in both cases. -/
def SameResult (r r' : Except Bytes (GatewayConfig δ)) : Prop :=
  (∃ cfg, r = .ok cfg ∧ r' = .ok cfg) ∨ (∃ e, r = .error e) ∧ ∃ e, r' = .error e

theorem sameResult_checked_iff (cfg cfg' : GatewayConfig δ) :
    SameResult (checked cfg) (checked cfg')
      ↔ cfg = cfg' ∨ validate cfg ≠ .ok () ∧ validate cfg' ≠ .ok () := by
  simp only [SameResult, checked_eq_ok_iff, exists_checked_eq_error_iff]
  constructor
  · rintro (⟨c, ⟨-, rfl⟩, -, rfl⟩ | hinvalid)
    · exact .inl rfl
    · exact .inr hinvalid
  · rintro (rfl | hinvalid)
    · by_cases hvalid : validate cfg = .ok ()
      · exact .inl ⟨cfg, ⟨hvalid, rfl⟩, hvalid, rfl⟩
      · exact .inr ⟨hvalid, hvalid⟩
    · exact .inr hinvalid

end Files

/-- A file with one group and one route, which are written as given. -/
def oneGroup (keys : Item GroupKey) (route : Item RouteKey) : List Section :=
  [.groups [⟨keys, [⟨(.host, bytes "127.0.0.1"), [(.port, bytes "9001")], by decide, by decide⟩]⟩],
    .routes [route]]

theorem rearranged_oneGroup {keys keys' : Item GroupKey} (hkeys : keys.Rearranged keys')
    {route route' : Item RouteKey} (hroute : route.Rearranged route') :
    List.Forall₂ Section.Rearranged (oneGroup keys route) (oneGroup keys' route') :=
  .cons (.groups (.cons ⟨hkeys, .cons (.refl _) .nil⟩ .nil)) (.cons (.routes (.cons hroute .nil)) .nil)

/-- The lines of a file without a comment. -/
def uncommented (lines : List Line) : List Bytes :=
  lines.map fun ln => List.replicate ln.indent sp ++ ln.content ++ []

theorem written_uncommented (lines : List Line) : Written lines (uncommented lines) := by
  induction lines with
  | nil => exact .nil
  | cons ln lines ih => exact .line ln ⟨[], [], rfl, by simp, .inl rfl, by simp⟩ ih

def plainText (lines : List Line) : Bytes := (uncommented lines).flatMap (· ++ [lf])

theorem renders_plainText (lines : List Line) : Renders lines (plainText lines) :=
  ⟨_, written_uncommented lines, .inl rfl⟩

def oneGroupText (keys : Item GroupKey) (route : Item RouteKey) : Bytes :=
  plainText ((oneGroup keys route).flatMap Section.lines)

def nameFirst : Item GroupKey where
  first := (.name, bytes "users")
  rest := [(.strategy, bytes "least_connections")]
  distinct := by decide
  text := by decide

def strategyFirst : Item GroupKey where
  first := (.strategy, bytes "least_connections")
  rest := [(.name, bytes "users")]
  distinct := by decide
  text := by decide

def groupBeforeCacheable : Item RouteKey where
  first := (.pathPrefix, bytes "/")
  rest := [(.backendGroup, bytes "users"), (.cacheable, bytes "true")]
  distinct := by decide
  text := by decide

def cacheableBeforeGroup : Item RouteKey where
  first := (.pathPrefix, bytes "/")
  rest := [(.cacheable, bytes "true"), (.backendGroup, bytes "users")]
  distinct := by decide
  text := by decide

end ApiGateway.Config
