import ApiGateway.Http.Message
import Mathlib.Data.List.Induction

/-!
# The router

`addRoute` puts a route at the end of the table and sorts the table again, longest prefix first. The sort
is `std::sort`, which is not stable: routes with prefixes of one length may come in any order, and in
another one after every call. So a call brings its own sorting function, of which only what the standard
promises is known (`StdSort`). `matchRoute` is the search for the first route that covers the path.

The table is a sorted permutation of the added routes (`table_perm`, `table_sorted`). Two prefixes that
cover one path and have the same length are equal (`Covers.eq_of_length_eq`), so neither the order of the
calls nor the order that a sort chooses among equals shows in the prefix that is found.

Reference: `include/routing/Router.hpp`.
-/

namespace ApiGateway.Routing

open Str Http

/-- A function that sorts as `std::sort` does with the comparison `before`: the result is a permutation of
the argument in which nothing stands behind what it comes before. -/
structure StdSort {α : Type*} (before : α → α → Bool) where
  sort : List α → List α
  perm : ∀ l, (sort l).Perm l
  sorted : ∀ l, (sort l).Pairwise fun a b => before b a = false

/-- An entry of the route table, with load balancers of any type. -/
structure Route (β : Type*) where
  pathPrefix : Bytes
  lb : β
  cacheable : Bool := false
deriving DecidableEq, Repr

namespace Router

variable {β : Type*}

/-- The comparison of the sort. -/
def longer (a b : Route β) : Bool := b.pathPrefix.length < a.pathPrefix.length

def addRoute (std : StdSort (longer (β := β))) (routes : List (Route β)) (route : Route β) :
    List (Route β) :=
  std.sort (routes ++ [route])

/-- The test in the loop of `match`. -/
def accepts (path : Bytes) (r : Route β) : Bool :=
  let exact : Bool := path = r.pathPrefix
  let nested : Bool := r.pathPrefix = [slash] ||
    (r.pathPrefix.length < path.length &&
      path.take r.pathPrefix.length = r.pathPrefix &&
      path[r.pathPrefix.length]? = some slash)
  exact || nested

/-- `match`, with `none` for the null pointer. -/
def matchRoute (routes : List (Route β)) (path : Bytes) : Option (Route β) :=
  routes.find? (accepts path)

/-- The table after some calls of `addRoute`, each with the sort that it does. -/
def table (calls : List (StdSort (longer (β := β)) × Route β)) : List (Route β) :=
  calls.foldl (fun routes call => addRoute call.1 routes call.2) []

/-! ## The table -/

variable (calls : List (StdSort (longer (β := β)) × Route β))

/-- The table holds the added routes and nothing else. -/
theorem table_perm : (table calls).Perm (calls.map Prod.snd) := by
  induction calls using List.reverseRecOn with
  | nil => exact List.Perm.nil
  | append_singleton calls call ih =>
    rw [table, List.foldl_append, List.map_append]
    exact (call.1.perm _).trans (ih.append_right _)

/-- A longer prefix never stands behind a shorter one. -/
theorem table_sorted :
    (table calls).Pairwise fun a b => b.pathPrefix.length ≤ a.pathPrefix.length := by
  rcases List.eq_nil_or_concat calls with rfl | ⟨earlier, call, rfl⟩
  · exact List.Pairwise.nil
  · rw [List.concat_eq_append, table, List.foldl_append]
    refine (call.1.sorted _).imp ?_
    intro a b hlt
    simpa [longer] using hlt

/-! ## Segments -/

/-- A prefix covers the paths that it is a prefix of by whole segments, and the root covers every path. -/
def Covers (p path : Bytes) : Prop := p = [slash] ∨ path = p ∨ p ++ [slash] <+: path

/-- The loop asks for a covering prefix. -/
theorem accepts_iff (path : Bytes) (r : Route β) : accepts path r = true ↔ Covers r.pathPrefix path := by
  have hnested : r.pathPrefix ++ [slash] <+: path ↔
      r.pathPrefix.length < path.length ∧ path.take r.pathPrefix.length = r.pathPrefix ∧
        path[r.pathPrefix.length]? = some slash := by
    constructor
    · rintro ⟨rest, rfl⟩
      simp
    · rintro ⟨-, htake, hnext⟩
      obtain ⟨hlt, hget⟩ := List.getElem?_eq_some_iff.mp hnext
      refine ⟨path.drop (r.pathPrefix.length + 1), ?_⟩
      conv_rhs => rw [← List.take_append_drop r.pathPrefix.length path, htake,
        List.drop_eq_getElem_cons hlt, hget]
      simp
  simp only [accepts, Covers, hnested, Bool.or_eq_true, Bool.and_eq_true, decide_eq_true_eq]
  tauto

/-- A covering prefix other than the root begins the path. -/
theorem Covers.take_eq {p path : Bytes} (h : Covers p path) : p = [slash] ∨ path.take p.length = p := by
  rcases h with hroot | rfl | ⟨rest, rfl⟩
  · exact .inl hroot
  · exact .inr (List.take_length)
  · exact .inr (by simp)

/-- Of the prefixes that begin with a slash, the root is the only one of its length. -/
theorem eq_root {p : Bytes} (hp : [slash] <+: p) (hlen : p.length = 1) : p = [slash] :=
  (hp.eq_of_length hlen.symm).symm

/-- **Two prefixes that cover one path are told apart by their lengths.** -/
theorem Covers.eq_of_length_eq {p q path : Bytes} (hp : Covers p path) (hq : Covers q path)
    (hps : [slash] <+: p) (hqs : [slash] <+: q) (hlen : p.length = q.length) : p = q := by
  rcases hp.take_eq with rfl | hp
  · exact (eq_root hqs hlen.symm).symm
  rcases hq.take_eq with rfl | hq
  · exact eq_root hps hlen
  rw [← hp, ← hq, hlen]

/-! ## What is found -/

theorem matchRoute_eq_none_iff (path : Bytes) :
    matchRoute (table calls) path = none ↔ ∀ call ∈ calls, ¬ Covers call.2.pathPrefix path := by
  simp only [matchRoute, List.find?_eq_none, accepts_iff, (table_perm calls).mem_iff,
    List.forall_mem_map]

/-- The first route that covers the path has the longest of the covering prefixes. -/
theorem matchRoute_eq_some {path : Bytes} {r : Route β} (h : matchRoute (table calls) path = some r) :
    r ∈ calls.map Prod.snd ∧ Covers r.pathPrefix path ∧
      ∀ call ∈ calls, Covers call.2.pathPrefix path →
        call.2.pathPrefix.length ≤ r.pathPrefix.length := by
  obtain ⟨haccepts, before, after, htable, hbefore⟩ := List.find?_eq_some_iff_append.mp h
  have hmem : r ∈ table calls := by simp [htable]
  refine ⟨(table_perm calls).mem_iff.mp hmem, (accepts_iff path r).mp haccepts, ?_⟩
  intro call hcall hcovers
  have hin : call.2 ∈ before ++ r :: after := by
    rw [← htable, (table_perm calls).mem_iff]
    exact List.mem_map_of_mem hcall
  rcases List.mem_append.mp hin with hin | hin
  · -- the search has passed the routes before `r`
    have := hbefore _ hin
    rw [(accepts_iff path _).mpr hcovers] at this
    simp at this
  · rcases List.mem_cons.mp hin with heq | hin
    · rw [heq]
    · have hsorted := table_sorted calls
      rw [htable, List.pairwise_append, List.pairwise_cons] at hsorted
      exact hsorted.2.1.1 _ hin

/-- The prefix that is found depends on the set of the added routes only. -/
theorem matchRoute_pathPrefix_eq {calls' : List (StdSort (longer (β := β)) × Route β)}
    (hslash : ∀ call ∈ calls, [slash] <+: call.2.pathPrefix)
    (hperm : (calls'.map Prod.snd).Perm (calls.map Prod.snd)) (path : Bytes) :
    (matchRoute (table calls') path).map Route.pathPrefix
      = (matchRoute (table calls) path).map Route.pathPrefix := by
  have hmem : ∀ r, (∃ call ∈ calls', call.2 = r) ↔ ∃ call ∈ calls, call.2 = r := by
    intro r
    simpa only [List.mem_map] using hperm.mem_iff (a := r)
  have hslash' : ∀ r ∈ calls.map Prod.snd, [slash] <+: r.pathPrefix := by
    simpa only [List.forall_mem_map] using hslash
  cases hr : matchRoute (table calls) path with
  | none =>
    have hnone : matchRoute (table calls') path = none := by
      rw [matchRoute_eq_none_iff] at hr ⊢
      intro call' hcall' hcovers
      obtain ⟨call, hcall, heq⟩ := (hmem call'.2).mp ⟨call', hcall', rfl⟩
      exact hr call hcall (heq ▸ hcovers)
    rw [hnone]
  | some r =>
    obtain ⟨hin, hcovers, hlongest⟩ := matchRoute_eq_some calls hr
    cases hr' : matchRoute (table calls') path with
    | none =>
      rw [matchRoute_eq_none_iff] at hr'
      obtain ⟨call', hcall', heq⟩ := (hmem r).mpr (List.mem_map.mp hin)
      exact absurd (heq ▸ hcovers) (hr' call' hcall')
    | some r' =>
      obtain ⟨hin', hcovers', hlongest'⟩ := matchRoute_eq_some calls' hr'
      obtain ⟨call, hcall, rfl⟩ := (hmem r').mp (List.mem_map.mp hin')
      obtain ⟨call', hcall', rfl⟩ := (hmem r).mpr (List.mem_map.mp hin)
      have hlen := le_antisymm (hlongest call hcall hcovers') (hlongest' call' hcall' hcovers)
      rw [Option.map_some, Option.map_some, hcovers'.eq_of_length_eq hcovers
        (hslash call hcall) (hslash' _ hin) hlen]

/-- **Longest-prefix routing.** Nothing is found exactly when no added prefix covers the path; otherwise
an added route is found whose prefix covers the path and is at least as long as every other one that
does. Calls in another order, or with other sorts, find the same prefix. -/
theorem matchRoute_longest (hslash : ∀ call ∈ calls, [slash] <+: call.2.pathPrefix) (path : Bytes) :
    (matchRoute (table calls) path = none ↔ ∀ call ∈ calls, ¬ Covers call.2.pathPrefix path) ∧
    (∀ r, matchRoute (table calls) path = some r →
      r ∈ calls.map Prod.snd ∧ Covers r.pathPrefix path ∧
        ∀ call ∈ calls, Covers call.2.pathPrefix path →
          call.2.pathPrefix.length ≤ r.pathPrefix.length) ∧
    ∀ calls' : List (StdSort (longer (β := β)) × Route β),
      (calls'.map Prod.snd).Perm (calls.map Prod.snd) →
      (matchRoute (table calls') path).map Route.pathPrefix
        = (matchRoute (table calls) path).map Route.pathPrefix := by
  refine ⟨matchRoute_eq_none_iff calls path, ?_, ?_⟩
  · intro r hr
    exact matchRoute_eq_some calls hr
  · intro calls' hperm
    exact matchRoute_pathPrefix_eq calls hslash hperm path

/-- The merge sort of the library is such a sort. -/
def mergeLonger : StdSort (longer (β := β)) where
  sort l := l.mergeSort fun a b => b.pathPrefix.length ≤ a.pathPrefix.length
  perm l := l.mergeSort_perm _
  sorted l := by
    refine (List.pairwise_mergeSort ?_ ?_ l).imp ?_
    · intro a b c hab hbc
      simp only [decide_eq_true_eq] at hab hbc ⊢
      exact hbc.trans hab
    · intro a b
      simpa using Nat.le_total b.pathPrefix.length a.pathPrefix.length
    · intro a b hle
      simpa [longer] using hle

def apiCall : StdSort (longer (β := ℕ)) × Route ℕ := (mergeLonger, ⟨bytes "/api", 0, false⟩)

def usersCall : StdSort (longer (β := ℕ)) × Route ℕ :=
  (mergeLonger, ⟨bytes "/api/users", 1, true⟩)

/-- A path below `/api/users` finds one prefix, whichever of the two routes is added first. -/
theorem matchRoute_longest_users :
    (matchRoute (table [usersCall, apiCall]) (bytes "/api/users/42")).map Route.pathPrefix
      = (matchRoute (table [apiCall, usersCall]) (bytes "/api/users/42")).map Route.pathPrefix :=
  (matchRoute_longest [apiCall, usersCall] (by decide) (bytes "/api/users/42")).2.2
    [usersCall, apiCall] (List.Perm.swap _ _ _)

/-! ## Prefixes that end in a slash -/

/-- A route at least as long as a bound is found exactly when one covers the path. -/
theorem exists_matchRoute_iff (path : Bytes) (n : ℕ) :
    (∃ r, matchRoute (table calls) path = some r ∧ n ≤ r.pathPrefix.length) ↔
      ∃ call ∈ calls, Covers call.2.pathPrefix path ∧ n ≤ call.2.pathPrefix.length := by
  constructor
  · rintro ⟨r, hr, hle⟩
    obtain ⟨hin, hcovers, -⟩ := matchRoute_eq_some calls hr
    obtain ⟨call, hcall, rfl⟩ := List.mem_map.mp hin
    exact ⟨call, hcall, hcovers, hle⟩
  · rintro ⟨call, hcall, hcovers, hle⟩
    cases hr : matchRoute (table calls) path with
    | none => exact absurd hcovers ((matchRoute_eq_none_iff calls path).mp hr call hcall)
    | some r =>
      obtain ⟨-, -, hlongest⟩ := matchRoute_eq_some calls hr
      exact ⟨r, rfl, hle.trans (hlongest call hcall hcovers)⟩

/-- **When a prefix that ends in a slash covers the paths below it.** The test of the loop asks for a slash
behind the prefix, also if the prefix ends in one. So every such prefix of the path finds a route at least
as long as itself if and only if, for each of them, an added prefix at least as long is the root, or the
path, or goes on with a slash in the path. -/
theorem matchRoute_slash_iff (path : Bytes) :
    (∀ call ∈ calls, [slash] <:+ call.2.pathPrefix → call.2.pathPrefix <+: path →
      ∃ r, matchRoute (table calls) path = some r ∧
        call.2.pathPrefix.length ≤ r.pathPrefix.length) ↔
    ∀ call ∈ calls, [slash] <:+ call.2.pathPrefix → call.2.pathPrefix <+: path →
      ∃ call' ∈ calls, (call'.2.pathPrefix = [slash] ∨ path = call'.2.pathPrefix ∨
          call'.2.pathPrefix ++ [slash] <+: path) ∧
        call.2.pathPrefix.length ≤ call'.2.pathPrefix.length := by
  refine forall₂_congr fun call _ => imp_congr_right fun _ => imp_congr_right fun _ => ?_
  exact exists_matchRoute_iff calls path call.2.pathPrefix.length

/-- **A prefix that covers nothing below it.** -/
theorem matchRoute_slash_lost :
    matchRoute (table [((mergeLonger, ⟨bytes "/api/", 0, false⟩) :
      StdSort (longer (β := ℕ)) × Route ℕ)]) (bytes "/api/users") = none ∧
    [slash] <:+ bytes "/api/" ∧ bytes "/api/" <+: bytes "/api/users" := by
  decide +kernel

end Router

end ApiGateway.Routing
