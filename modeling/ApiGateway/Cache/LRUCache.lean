import ApiGateway.Common.Bytes
import ApiGateway.Common.LinkedList
import ApiGateway.Common.Recency
import Mathlib.Data.Finmap

/-!
# The LRU cache

`LRUCache` as the source has it: a linked list of entries, the most recently used first, and a hash index
from keys to list iterators. Every member function runs under the cache's lock, so a call is one step,
and the clock reading it takes is an argument, in the unit of `ttl`. Following an iterator to a node that
is gone is undefined behaviour; such a call has no result here, and none is ever made.

`Coherent` says that the list and the index are two views of one cache. It carries the refinement
`lru_refines_recency_list`, by which the index can be forgotten, and what the cache holds is then told
from the history of the calls (`get_by_history`).

Reference: `include/cache/LRUCache.hpp`.
-/

namespace ApiGateway.Cache

open Str Recency

structure LRUCache (Value : Type*) where
  capacity : ℕ
  ttl : ℤ := 0
  list : LinkedList (Entry Bytes Value) := {}
  index : Finmap fun _ : Bytes => ℕ := ∅

namespace LRUCache

variable {Value : Type*}

def get (c : LRUCache Value) (key : Bytes) (now : ℤ) : Option (Option Value × LRUCache Value) :=
  match c.index.lookup key with
  | none => some (none, c)
  | some it => do
    let entry ← c.list.deref it
    if 0 < c.ttl ∧ c.ttl < now - entry.insertedAt then
      let list ← c.list.erase it
      some (none, { c with list, index := c.index.erase key })
    else
      let list ← c.list.toFront it
      let entry ← list.deref it
      some (some entry.value, { c with list })

def put (c : LRUCache Value) (key : Bytes) (value : Value) (now : ℤ) : Option (LRUCache Value) :=
  match c.index.lookup key with
  | some it => do
    let list ← c.list.modify it fun entry => { entry with value, insertedAt := now }
    let list ← list.toFront it
    some { c with list }
  | none => do
    let (list, it) := c.list.pushFront ⟨key, value, now⟩
    let index := c.index.insert key it
    if c.capacity < index.keys.card then
      let lru ← list.back
      let list ← list.popBack
      some { c with list, index := index.erase lru.key }
    else some { c with list, index }

def invalidate (c : LRUCache Value) (key : Bytes) : Option (LRUCache Value) :=
  match c.index.lookup key with
  | none => some c
  | some it => do
    let list ← c.list.erase it
    some { c with list, index := c.index.erase key }

def clear (c : LRUCache Value) : LRUCache Value :=
  { c with list := {}, index := ∅ }

def size (c : LRUCache Value) : ℕ := c.index.keys.card

/-- A call at time `now`. -/
def call (c : LRUCache Value) (now : ℤ) : Op Bytes Value → Option (Result Value × LRUCache Value)
  | .get key => (c.get key now).map fun r => (.value r.1, r.2)
  | .put key value => (c.put key value now).map fun c => (.done, c)
  | .invalidate key => (c.invalidate key).map fun c => (.done, c)
  | .clear => some (.done, c.clear)
  | .size => some (.size c.size, c)

/-- A call, as a step that is logged; after undefined behaviour there is nothing to say. -/
def step (c : Option (LRUCache Value)) (request : ℤ × Op Bytes Value) :
    Option (LRUCache Value) × List (Event Bytes Value) :=
  match c.bind fun c => c.call request.1 request.2 with
  | none => (none, [])
  | some (result, c) => (some c, [⟨request.1, request.2, result⟩])

/-! ## The list and the index -/

/-- What the cache holds, the most recently used first. -/
def entries (c : LRUCache Value) : List (Entry Bytes Value) := c.list.toList

/-- The keys of the list are distinct, and the index has the node of each key. -/
structure Coherent (c : LRUCache Value) : Prop where
  nodup : (c.entries.map Entry.key).Nodup
  index_iff : ∀ key it, c.index.lookup key = some it ↔
    ∃ entry, c.list.deref it = some entry ∧ entry.key = key

namespace Coherent

variable {c : LRUCache Value} {it : ℕ} {entry x : Entry Bytes Value} {key : Bytes}

/-- The node of a key is the only one with this key. -/
theorem fst_eq_iff (h : Coherent c) (hderef : c.list.deref it = some entry)
    {n : ℕ × Entry Bytes Value} (hn : n ∈ c.list.nodes) : n.1 = it ↔ n.2.key = entry.key := by
  have hmem := (c.list.deref_eq_some_iff it entry).mp hderef
  have hkeys : (c.list.nodes.map fun n => n.2.key).Nodup := by
    have hnodup := h.nodup
    rw [entries, LinkedList.toList, List.map_map] at hnodup
    exact hnodup
  constructor
  · intro hit
    rw [List.inj_on_of_nodup_map c.list.nodup hn hmem hit]
  · intro hkey
    rw [List.inj_on_of_nodup_map hkeys hn hmem hkey]

theorem map_others (h : Coherent c) (hderef : c.list.deref it = some entry) :
    (c.list.others it).map Prod.snd = remove entry.key c.entries := by
  rw [remove, entries, LinkedList.toList, List.filter_map, LinkedList.others]
  refine congrArg (List.map Prod.snd) (List.filter_congr fun n hn => ?_)
  simpa using h.fst_eq_iff hderef hn

/-- A key with an index is found in the list. -/
theorem exists_deref (h : Coherent c) (hindex : c.index.lookup key = some it) :
    ∃ entry, c.list.deref it = some entry ∧ entry.key = key ∧
      lookup key c.entries = some entry := by
  obtain ⟨entry, hderef, hkey⟩ := (h.index_iff key it).mp hindex
  refine ⟨entry, hderef, hkey, (lookup_eq_some_iff h.nodup).mpr ⟨?_, hkey⟩⟩
  exact List.mem_map.mpr ⟨_, (c.list.deref_eq_some_iff it entry).mp hderef, rfl⟩

theorem mem_index_iff (h : Coherent c) : key ∈ c.index ↔ key ∈ c.entries.map Entry.key := by
  rw [Finmap.mem_iff]
  constructor
  · rintro ⟨it, hindex⟩
    obtain ⟨entry, -, rfl, hlookup⟩ := h.exists_deref hindex
    exact List.mem_map_of_mem (mem_of_lookup hlookup).1
  · intro hmem
    obtain ⟨entry, hentry, rfl⟩ := List.mem_map.mp hmem
    obtain ⟨n, hn, rfl⟩ := List.mem_map.mp hentry
    exact ⟨n.1, (h.index_iff _ _).mpr ⟨n.2, (c.list.deref_eq_some_iff _ _).mpr hn, rfl⟩⟩

/-- A key without an index is not in the list. -/
theorem lookup_eq_none (h : Coherent c) (hindex : c.index.lookup key = none) :
    lookup key c.entries = none := by
  rw [lookup_eq_none_iff, ← h.mem_index_iff]
  exact Finmap.lookup_eq_none.mp hindex

theorem size_eq (h : Coherent c) : c.size = c.entries.length := by
  have hkeys : c.index.keys = (c.entries.map Entry.key).toFinset := by
    ext key
    rw [Finmap.mem_keys, List.mem_toFinset, h.mem_index_iff]
  rw [size, hkeys, List.toFinset_card_of_nodup h.nodup, List.length_map]

/-- Erase a node and its index. -/
theorem drop (h : Coherent c) (hderef : c.list.deref it = some entry)
    {list : LinkedList (Entry Bytes Value)} (hlist : list.nodes = c.list.others it) :
    Coherent { c with list, index := c.index.erase entry.key } ∧
      list.toList = remove entry.key c.entries := by
  have hentries : list.toList = remove entry.key c.entries := by
    rw [LinkedList.toList, hlist, h.map_others hderef]
  refine ⟨⟨?_, fun key' it' => ?_⟩, hentries⟩
  · show (list.toList.map Entry.key).Nodup
    rw [hentries]
    exact h.nodup.sublist ((remove_sublist _ _).map _)
  · show (c.index.erase entry.key).lookup key' = some it' ↔ ∃ e, list.deref it' = some e ∧ e.key = key'
    simp only [LinkedList.deref_eq_some_iff, hlist, LinkedList.others, List.mem_filter,
      decide_eq_true_eq]
    by_cases hkey : key' = entry.key
    · subst hkey
      rw [Finmap.lookup_erase]
      simp only [reduceCtorEq, false_iff]
      rintro ⟨e, ⟨hmem, hne⟩, hkey⟩
      exact hne ((h.fst_eq_iff hderef hmem).mpr hkey)
    · rw [Finmap.lookup_erase_ne hkey, h.index_iff]
      simp only [LinkedList.deref_eq_some_iff]
      refine exists_congr fun e => ⟨?_, ?_⟩
      · rintro ⟨hmem, he⟩
        exact ⟨⟨hmem, fun hit => hkey (he.symm.trans ((h.fst_eq_iff hderef hmem).mp hit))⟩, he⟩
      · rintro ⟨⟨hmem, -⟩, he⟩
        exact ⟨hmem, he⟩

/-- Move a node to the front, possibly with new contents for its key. -/
theorem renew (h : Coherent c) (hderef : c.list.deref it = some entry) (hkey : x.key = entry.key)
    {list : LinkedList (Entry Bytes Value)} (hlist : list.nodes = (it, x) :: c.list.others it) :
    Coherent { c with list } ∧ list.toList = touch x c.entries := by
  have hentries : list.toList = touch x c.entries := by
    rw [LinkedList.toList, hlist, List.map_cons, h.map_others hderef, touch, hkey]
  refine ⟨⟨?_, fun key' it' => ?_⟩, hentries⟩
  · show (list.toList.map Entry.key).Nodup
    rw [hentries]
    exact nodup_touch h.nodup x
  · show c.index.lookup key' = some it' ↔ ∃ e, list.deref it' = some e ∧ e.key = key'
    rw [h.index_iff]
    simp only [LinkedList.deref_eq_some_iff, hlist, LinkedList.others, List.mem_cons, List.mem_filter,
      decide_eq_true_eq, Prod.mk.injEq]
    by_cases hit : it' = it
    · subst hit
      have hmem := (c.list.deref_eq_some_iff it' entry).mp hderef
      constructor
      · rintro ⟨e, he, rfl⟩
        exact ⟨x, .inl ⟨rfl, rfl⟩, hkey.trans ((h.fst_eq_iff hderef he).mp rfl).symm⟩
      · rintro ⟨e, ⟨-, rfl⟩ | ⟨-, hne⟩, rfl⟩
        · exact ⟨entry, hmem, hkey.symm⟩
        · exact absurd rfl hne
    · refine exists_congr fun e => ⟨?_, ?_⟩
      · rintro ⟨hmem, he⟩
        exact ⟨.inr ⟨hmem, hit⟩, he⟩
      · rintro ⟨⟨rfl, -⟩ | ⟨hmem, -⟩, he⟩
        · exact absurd rfl hit
        · exact ⟨hmem, he⟩

/-- Add a node and its index. -/
theorem add (h : Coherent c) (hindex : c.index.lookup x.key = none) :
    Coherent { c with list := (c.list.pushFront x).1,
                      index := c.index.insert x.key (c.list.pushFront x).2 } ∧
      (c.list.pushFront x).1.toList = touch x c.entries := by
  have habsent := lookup_eq_none_iff.mp (h.lookup_eq_none hindex)
  have hentries : (c.list.pushFront x).1.toList = touch x c.entries := by
    have hremove : remove x.key c.entries = c.entries := by
      refine List.filter_eq_self.mpr fun e he => ?_
      simpa using fun hkey => habsent (List.mem_map.mpr ⟨e, he, hkey⟩)
    rw [touch, hremove]
    rfl
  refine ⟨⟨?_, fun key' it' => ?_⟩, hentries⟩
  · show ((c.list.pushFront x).1.toList.map Entry.key).Nodup
    rw [hentries]
    exact nodup_touch h.nodup x
  · -- no node has the new number, and no entry has the new key
    show (c.index.insert x.key c.list.next).lookup key' = some it' ↔
      ∃ e, (c.list.pushFront x).1.deref it' = some e ∧ e.key = key'
    simp only [LinkedList.deref_eq_some_iff, LinkedList.pushFront, List.mem_cons, Prod.mk.injEq]
    by_cases hkey : key' = x.key
    · subst hkey
      rw [Finmap.lookup_insert, Option.some.injEq]
      constructor
      · rintro rfl
        exact ⟨x, .inl ⟨rfl, rfl⟩, rfl⟩
      · rintro ⟨e, ⟨rfl, -⟩ | hmem, he⟩
        · rfl
        · exact absurd (List.mem_map.mpr ⟨e, List.mem_map.mpr ⟨_, hmem, rfl⟩, he⟩) habsent
    · rw [Finmap.lookup_insert_of_ne _ hkey, h.index_iff]
      simp only [LinkedList.deref_eq_some_iff]
      refine exists_congr fun e => ⟨?_, ?_⟩
      · rintro ⟨hmem, he⟩
        exact ⟨.inr hmem, he⟩
      · rintro ⟨⟨-, rfl⟩ | hmem, he⟩
        · exact absurd he.symm hkey
        · exact ⟨hmem, he⟩

end Coherent

/-! ## The refinement -/

/-- A cache with these parameters that holds the entries of a recency list. -/
structure Refines (capacity : ℕ) (ttl : ℤ) (c : LRUCache Value) (l : List (Entry Bytes Value)) :
    Prop where
  coherent : Coherent c
  entries_eq : c.entries = l
  capacity_eq : c.capacity = capacity
  ttl_eq : c.ttl = ttl

variable {capacity : ℕ} {ttl : ℤ} {c : LRUCache Value} {l : List (Entry Bytes Value)}

theorem Refines.get (h : Refines capacity ttl c l) (key : Bytes) (now : ℤ) :
    ∃ found c', c.get key now = some (found, c') ∧
      (apply capacity ttl now l (.get key)).1 = .value found ∧
      Refines capacity ttl c' (apply capacity ttl now l (.get key)).2 := by
  obtain ⟨hcoherent, rfl, rfl, rfl⟩ := h
  unfold LRUCache.get
  cases hindex : c.index.lookup key with
  | none =>
    have hlookup := hcoherent.lookup_eq_none hindex
    simp only [apply, hlookup]
    exact ⟨none, c, rfl, rfl, hcoherent, rfl, rfl, rfl⟩
  | some it =>
    obtain ⟨entry, hderef, rfl, hlookup⟩ := hcoherent.exists_deref hindex
    simp only [apply, hlookup, Entry.Expired, hderef, Option.bind_eq_bind, Option.bind_some]
    by_cases hexpired : 0 < c.ttl ∧ c.ttl < now - entry.insertedAt
    · obtain ⟨list, herase, hlist⟩ := LinkedList.exists_erase hderef
      obtain ⟨hcoherent', hentries⟩ := hcoherent.drop hderef hlist
      simp only [hexpired, herase, Option.bind_some, and_self, if_true]
      exact ⟨none, _, rfl, rfl, hcoherent', hentries, rfl, rfl⟩
    · obtain ⟨list, hfront, hlist⟩ := LinkedList.exists_toFront hderef
      obtain ⟨hcoherent', hentries⟩ := hcoherent.renew hderef rfl hlist
      have hderef' : list.deref it = some entry := by
        rw [LinkedList.deref_eq_some_iff, hlist]
        exact List.mem_cons_self
      simp only [hexpired, hfront, hderef', Option.bind_some, if_false]
      exact ⟨some entry.value, _, rfl, rfl, hcoherent', hentries, rfl, rfl⟩

theorem Refines.put (h : Refines capacity ttl c l) (hsound : Sound capacity l) (key : Bytes)
    (value : Value) (now : ℤ) :
    ∃ c', c.put key value now = some c' ∧
      Refines capacity ttl c' (evict capacity (touch ⟨key, value, now⟩ l)) := by
  obtain ⟨hcoherent, rfl, rfl, rfl⟩ := h
  unfold LRUCache.put
  cases hindex : c.index.lookup key with
  | some it =>
    obtain ⟨entry, hderef, rfl, hlookup⟩ := hcoherent.exists_deref hindex
    obtain ⟨list, hmodify, hderef', hothers⟩ := LinkedList.exists_modify hderef
      fun entry => { entry with value, insertedAt := now }
    obtain ⟨list', hfront, hlist⟩ := LinkedList.exists_toFront hderef'
    rw [hothers] at hlist
    obtain ⟨hcoherent', hentries⟩ :=
      hcoherent.renew (x := ⟨entry.key, value, now⟩) hderef rfl hlist
    have hmem : (⟨entry.key, value, now⟩ : Entry Bytes Value).key ∈ c.entries.map Entry.key :=
      List.mem_map.mpr ⟨entry, (mem_of_lookup hlookup).1, rfl⟩
    simp only [hmodify, hfront, Option.bind_eq_bind, Option.bind_some]
    refine ⟨_, rfl, hcoherent', ?_, rfl, rfl⟩
    -- the key was there, so that the specification evicts nothing either
    rw [evict_touch_of_mem hsound hmem]
    exact hentries
  | none =>
    obtain ⟨hcoherent', hentries⟩ := hcoherent.add (x := ⟨key, value, now⟩) hindex
    -- both evict if the index has got too many keys
    have hsize := hcoherent'.size_eq
    rw [size, entries, hentries] at hsize
    unfold evict
    simp only [hsize]
    split
    · obtain ⟨it, lru, list, hback, hderef, hpop, hlist, hlast⟩ :=
        LinkedList.exists_back (l := (c.list.pushFront ⟨key, value, now⟩).1) (by
          simp [LinkedList.pushFront])
      obtain ⟨hcoherent'', -⟩ := hcoherent'.drop hderef hlist
      simp only [hback, hpop, Option.bind_eq_bind, Option.bind_some]
      exact ⟨_, rfl, hcoherent'', hlast.trans (congrArg List.dropLast hentries), rfl, rfl⟩
    · exact ⟨_, rfl, hcoherent', hentries, rfl, rfl⟩

theorem Refines.invalidate (h : Refines capacity ttl c l) (key : Bytes) :
    ∃ c', c.invalidate key = some c' ∧ Refines capacity ttl c' (remove key l) := by
  obtain ⟨hcoherent, rfl, rfl, rfl⟩ := h
  unfold LRUCache.invalidate
  cases hindex : c.index.lookup key with
  | none =>
    refine ⟨c, rfl, hcoherent, ?_, rfl, rfl⟩
    have habsent := lookup_eq_none_iff.mp (hcoherent.lookup_eq_none hindex)
    refine (List.filter_eq_self.mpr fun e he => ?_).symm
    simpa using fun hkey => habsent (List.mem_map.mpr ⟨e, he, hkey⟩)
  | some it =>
    obtain ⟨entry, hderef, rfl, -⟩ := hcoherent.exists_deref hindex
    obtain ⟨list, herase, hlist⟩ := LinkedList.exists_erase hderef
    obtain ⟨hcoherent', hentries⟩ := hcoherent.drop hderef hlist
    simp only [herase, Option.bind_eq_bind, Option.bind_some]
    exact ⟨_, rfl, hcoherent', hentries, rfl, rfl⟩

theorem coherent_empty (capacity : ℕ) (ttl : ℤ) :
    Coherent ({ capacity, ttl } : LRUCache Value) := by
  refine ⟨by simp [entries, LinkedList.toList], fun key it => ?_⟩
  simp [LinkedList.deref]

/-- **A call refines that of the recency list.** -/
theorem Refines.call (h : Refines capacity ttl c l) (hsound : Sound capacity l) (now : ℤ)
    (op : Op Bytes Value) :
    ∃ c', c.call now op = some ((apply capacity ttl now l op).1, c') ∧
      Refines capacity ttl c' (apply capacity ttl now l op).2 := by
  cases op with
  | get key =>
    obtain ⟨found, c', hget, hresult, hrefines⟩ := h.get key now
    refine ⟨c', ?_, hrefines⟩
    rw [hresult, LRUCache.call, hget]
    rfl
  | put key value =>
    obtain ⟨c', hput, hrefines⟩ := h.put hsound key value now
    refine ⟨c', ?_, hrefines⟩
    rw [LRUCache.call, hput]
    rfl
  | invalidate key =>
    obtain ⟨c', hinvalidate, hrefines⟩ := h.invalidate key
    refine ⟨c', ?_, hrefines⟩
    rw [LRUCache.call, hinvalidate]
    rfl
  | clear =>
    refine ⟨c.clear, rfl, ?_⟩
    rw [LRUCache.clear, h.capacity_eq, h.ttl_eq]
    exact ⟨coherent_empty capacity ttl, rfl, rfl, rfl⟩
  | size =>
    refine ⟨c, ?_, h⟩
    rw [LRUCache.call, h.coherent.size_eq, h.entries_eq]
    rfl

/-- **Every run refines that of the recency list**: it is defined, and has the same log. -/
theorem run_refines (capacity : ℕ) (ttl : ℤ) (calls : List (ℤ × Op Bytes Value)) :
    ∃ c, Reactive.run step (some { capacity, ttl }) calls
        = (some c, (Reactive.run (Recency.step capacity ttl) [] calls).2) ∧
      Refines capacity ttl c (Reactive.run (Recency.step capacity ttl) [] calls).1 ∧
      Sound capacity (Reactive.run (Recency.step capacity ttl) [] calls).1 := by
  induction calls using List.reverseRecOn with
  | nil =>
    refine ⟨_, rfl, ⟨coherent_empty capacity ttl, rfl, rfl, rfl⟩, ?_, ?_⟩
    · simp [Reactive.run]
    · simp [Reactive.run]
  | append_singleton calls request ih =>
    obtain ⟨c, hrun, hrefines, hsound⟩ := ih
    obtain ⟨c', hcall, hrefines'⟩ := hrefines.call hsound request.1 request.2
    refine ⟨c', ?_, ?_, ?_⟩
    · rw [Reactive.run_concat, Reactive.run_concat, hrun]
      simp only [step, Option.bind_some, hcall]
      rfl
    · rw [Reactive.run_concat]
      exact hrefines'
    · rw [Reactive.run_concat]
      exact hsound.apply request.1 request.2

/-- **The hash-indexed cache refines a recency list.** After any calls, at any times, on a new cache: the
keys of the list are distinct, the index has these keys and leads each to its own node, there are no more
entries than the capacity, and the calls have returned what they return on the recency list. -/
theorem lru_refines_recency_list (capacity : ℕ) (ttl : ℤ) (calls : List (ℤ × Op Bytes Value)) :
    ∃ c, Reactive.run step (some { capacity, ttl }) calls
        = (some c, (Reactive.run (Recency.step capacity ttl) [] calls).2) ∧
      (c.entries.map Entry.key).Nodup ∧
      (∀ key, key ∈ c.index ↔ key ∈ c.entries.map Entry.key) ∧
      (∀ key it, c.index.lookup key = some it →
        ∃ entry, c.list.deref it = some entry ∧ entry.key = key) ∧
      c.size ≤ capacity ∧ c.entries.length = c.size := by
  obtain ⟨c, hrun, hrefines, hsound⟩ := run_refines capacity ttl calls
  have hsize := hrefines.coherent.size_eq
  refine ⟨c, hrun, hrefines.coherent.nodup, fun key => hrefines.coherent.mem_index_iff, ?_, ?_,
    hsize.symm⟩
  · exact fun key it hindex => (hrefines.coherent.index_iff key it).mp hindex
  · rw [hsize, hrefines.entries_eq]
    exact hsound.length_le

/-! ## What the cache keeps -/

/-- **What the cache keeps, by its history.** A `get` after any calls on a new cache returns only what the
latest `put` of the key has stored, neither invalidated nor cleared, and not longer ago than a positive
`ttl`. It does return that, if no `get` of the key has missed since, and if fewer keys than the capacity
have been touched since the key was touched last. A successful `get` moves the entry to the front, with
its old insertion time. -/
theorem get_by_history (capacity : ℕ) (hpos : 1 ≤ capacity) (ttl : ℤ)
    (calls : List (ℤ × Op Bytes Value)) (key : Bytes) (now : ℤ) :
    ∃ c found c', (Reactive.run step (some { capacity, ttl }) calls).1 = some c ∧
      c.get key now = some (found, c') ∧
      (∀ v, found = some v →
        ∃ t, kept key (Reactive.run step (some { capacity, ttl }) calls).2 = some (v, t) ∧
          (0 < ttl → now - t ≤ ttl)) ∧
      (∀ v t, kept key (Reactive.run step (some { capacity, ttl }) calls).2 = some (v, t) →
        (0 < ttl → now - t ≤ ttl) →
        (∀ e ∈ sincePut key (Reactive.run step (some { capacity, ttl }) calls).2,
          e.misses key = false) →
        (touchedSince key (Reactive.run step (some { capacity, ttl }) calls).2).card < capacity →
        found = some v) ∧
      (∀ v, found = some v →
        ∃ entry, lookup key c.entries = some entry ∧ c'.entries = touch entry c.entries) := by
  obtain ⟨c, hrun, hrefines, -⟩ := run_refines capacity ttl calls
  have hex := explained_run hpos ttl calls
  obtain ⟨found, c', hget, hresult, hrefines'⟩ := hrefines.get key now
  rw [hrun]
  refine ⟨c, found, c', rfl, hget, ?_, ?_, ?_⟩
  · rintro v rfl
    exact hex.kept_of_get hresult
  · intro v t hkept hgood hmisses hfew
    have hfound := hresult.symm.trans (hex.get_of_kept hkept hgood hmisses hfew)
    exact Result.value.inj hfound
  · rintro v rfl
    rw [hrefines'.entries_eq, hrefines.entries_eq]
    rcases get_cases capacity ttl now (Reactive.run (Recency.step capacity ttl) [] calls).1 key
      with ⟨-, heq⟩ | ⟨x, -, -, heq⟩ | ⟨x, hlookup, -, heq⟩
    · simp [heq] at hresult
    · simp [heq] at hresult
    · exact ⟨x, hlookup, by rw [heq]⟩

/-- One key is put and looked up, and another one is put; the capacity is two. -/
def twoKeys : List (ℤ × Op Bytes ℕ) :=
  [(0, .put (bytes "a") 1), (3, .get (bytes "a")), (4, .put (bytes "b") 2)]

theorem get_by_history_twoKeys :
    ∃ c c', (Reactive.run step (some { capacity := 2, ttl := 5 }) twoKeys).1 = some c ∧
      c.get (bytes "a") 5 = some (some 1, c') := by
  obtain ⟨c, found, c', hrun, hget, -, hkept, -⟩ :=
    get_by_history 2 (by decide) 5 twoKeys (bytes "a") 5
  obtain rfl := hkept 1 0 (by decide) (by decide) (by decide) (by decide)
  exact ⟨c, c', hrun, hget⟩

end LRUCache

end ApiGateway.Cache
