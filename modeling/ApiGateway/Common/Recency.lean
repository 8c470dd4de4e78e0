import ApiGateway.Common.Reactive
import Mathlib.Data.Finset.Card
import Mathlib.Data.List.DropRight
import Mathlib.Data.Int.Order.Basic

/-!
# Caches as recency lists

A cache that is only a list of entries, the most recently used first. It is searched linearly, an entry
that is too old is dropped when it is looked up, and the last entry is dropped when there are too many.

The second half tells what such a cache holds from the history of its calls alone. The entries ahead of a
key have been touched since the key was touched last (`Explained.ahead`), so that a key is only evicted
when as many others as the capacity have been touched in the meantime (`Explained.present`).
-/

namespace Recency

variable {κ ν : Type*}

structure Entry (κ ν : Type*) where
  key : κ
  value : ν
  insertedAt : ℤ
deriving DecidableEq, Repr

inductive Op (κ ν : Type*) where
  | get (key : κ)
  | put (key : κ) (value : ν)
  | invalidate (key : κ)
  | clear
  | size
deriving DecidableEq, Repr

inductive Result (ν : Type*) where
  | value (found : Option ν)
  | size (n : ℕ)
  | done
deriving DecidableEq, Repr

/-- A call, at the time at which it was made, with its result. -/
structure Event (κ ν : Type*) where
  time : ℤ
  op : Op κ ν
  result : Result ν
deriving DecidableEq, Repr

/-- An entry is too old; without a positive time to live, no entry is. -/
def Entry.Expired (e : Entry κ ν) (ttl now : ℤ) : Prop := 0 < ttl ∧ ttl < now - e.insertedAt

instance (e : Entry κ ν) (ttl now : ℤ) : Decidable (e.Expired ttl now) :=
  inferInstanceAs (Decidable (_ ∧ _))

/-- Drop the last entry if there are too many. -/
def evict (capacity : ℕ) (l : List (Entry κ ν)) : List (Entry κ ν) :=
  if capacity < l.length then l.dropLast else l

theorem evict_sublist (capacity : ℕ) (l : List (Entry κ ν)) : (evict capacity l).Sublist l := by
  unfold evict
  split
  · exact List.dropLast_sublist l
  · exact List.Sublist.refl l

/-- Distinct keys, and not too many. -/
structure Sound (capacity : ℕ) (l : List (Entry κ ν)) : Prop where
  nodup : (l.map Entry.key).Nodup
  length_le : l.length ≤ capacity

theorem Sound.sublist {capacity : ℕ} {l l' : List (Entry κ ν)} (h : Sound capacity l)
    (hsub : l'.Sublist l) : Sound capacity l' :=
  ⟨h.nodup.sublist (hsub.map _), hsub.length_le.trans h.length_le⟩

section Operations

variable [DecidableEq κ]

/-- The entries with other keys. -/
def remove (k : κ) (l : List (Entry κ ν)) : List (Entry κ ν) := l.filter (·.key ≠ k)

/-- The entry of a key. -/
def lookup (k : κ) (l : List (Entry κ ν)) : Option (Entry κ ν) := l.find? (·.key = k)

/-- Put an entry in front, in the place of the old one of its key. -/
def touch (e : Entry κ ν) (l : List (Entry κ ν)) : List (Entry κ ν) := e :: remove e.key l

/-- A call at time `now`. -/
def apply (capacity : ℕ) (ttl now : ℤ) (l : List (Entry κ ν)) :
    Op κ ν → Result ν × List (Entry κ ν)
  | .get k =>
    match lookup k l with
    | none => (.value none, l)
    | some e =>
      if e.Expired ttl now then (.value none, remove k l) else (.value (some e.value), touch e l)
  | .put k v => (.done, evict capacity (touch ⟨k, v, now⟩ l))
  | .invalidate k => (.done, remove k l)
  | .clear => (.done, [])
  | .size => (.size l.length, l)

/-- A call, as a step that is logged. -/
def step (capacity : ℕ) (ttl : ℤ) (l : List (Entry κ ν)) (call : ℤ × Op κ ν) :
    List (Entry κ ν) × List (Event κ ν) :=
  let r := apply capacity ttl call.1 l call.2
  (r.2, [⟨call.1, call.2, r.1⟩])

/-! ## Lists with one entry for a key -/

theorem remove_sublist (k : κ) (l : List (Entry κ ν)) : (remove k l).Sublist l :=
  List.filter_sublist

theorem touch_subset (e : Entry κ ν) (l : List (Entry κ ν)) : touch e l ⊆ e :: l :=
  List.cons_subset_cons e (remove_sublist e.key l).subset

theorem mem_remove_iff {k : κ} {l : List (Entry κ ν)} {e : Entry κ ν} :
    e ∈ remove k l ↔ e ∈ l ∧ e.key ≠ k := by
  simp [remove]

theorem lookup_eq_none_iff {k : κ} {l : List (Entry κ ν)} :
    lookup k l = none ↔ k ∉ l.map Entry.key := by
  simp [lookup]

theorem mem_of_lookup {k : κ} {l : List (Entry κ ν)} {e : Entry κ ν} (h : lookup k l = some e) :
    e ∈ l ∧ e.key = k :=
  ⟨List.mem_of_find?_eq_some h, by simpa using List.find?_some h⟩

/-- With distinct keys, the entry of a key is the one that is found. -/
theorem lookup_eq_some_iff {k : κ} {l : List (Entry κ ν)} (hnodup : (l.map Entry.key).Nodup)
    {e : Entry κ ν} : lookup k l = some e ↔ e ∈ l ∧ e.key = k := by
  refine ⟨mem_of_lookup, fun ⟨hmem, hkey⟩ => ?_⟩
  cases hlookup : lookup k l with
  | none =>
    exact absurd (List.mem_map.mpr ⟨e, hmem, hkey⟩) (lookup_eq_none_iff.mp hlookup)
  | some e' =>
    obtain ⟨hmem', hkey'⟩ := mem_of_lookup hlookup
    exact congrArg some (List.inj_on_of_nodup_map hnodup hmem' hmem (hkey'.trans hkey.symm))

variable {capacity : ℕ} {ttl : ℤ} {l : List (Entry κ ν)}

/-- A lookup finds nothing, or an entry that is too old, or an entry that is still good. -/
theorem get_cases (capacity : ℕ) (ttl now : ℤ) (l : List (Entry κ ν)) (k : κ) :
    (lookup k l = none ∧ apply capacity ttl now l (.get k) = (.value none, l)) ∨
    (∃ e, lookup k l = some e ∧ e.Expired ttl now ∧
      apply capacity ttl now l (.get k) = (.value none, remove k l)) ∨
    (∃ e, lookup k l = some e ∧ ¬ e.Expired ttl now ∧
      apply capacity ttl now l (.get k) = (.value (some e.value), touch e l)) := by
  cases hlookup : lookup k l with
  | none => exact .inl ⟨rfl, by simp only [apply, hlookup]⟩
  | some e =>
    by_cases hexpired : e.Expired ttl now
    · exact .inr (.inl ⟨e, rfl, hexpired, by simp only [apply, hlookup, hexpired, if_true]⟩)
    · exact .inr (.inr ⟨e, rfl, hexpired, by simp only [apply, hlookup, hexpired, if_false]⟩)

theorem nodup_touch (hnodup : (l.map Entry.key).Nodup) (e : Entry κ ν) :
    ((touch e l).map Entry.key).Nodup := by
  rw [touch, List.map_cons, List.nodup_cons]
  refine ⟨fun hmem => ?_, hnodup.sublist ((remove_sublist e.key l).map _)⟩
  obtain ⟨x, hx, hkey⟩ := List.mem_map.mp hmem
  exact (mem_remove_iff.mp hx).2 hkey

theorem Sound.evict_touch (h : Sound capacity l) (e : Entry κ ν) :
    Sound capacity (evict capacity (touch e l)) := by
  refine ⟨(nodup_touch h.nodup e).sublist ((evict_sublist _ _).map _), ?_⟩
  have hlen : (touch e l).length ≤ capacity + 1 :=
    Nat.succ_le_succ ((remove_sublist e.key l).length_le.trans h.length_le)
  unfold evict
  split
  · rw [List.length_dropLast]
    omega
  · omega

/-- Touching a key that is there makes the list no longer. -/
theorem evict_touch_of_mem (h : Sound capacity l) {e : Entry κ ν} (hmem : e.key ∈ l.map Entry.key) :
    evict capacity (touch e l) = touch e l := by
  refine if_neg (not_lt.mpr ?_)
  obtain ⟨x, hx, hkey⟩ := List.mem_map.mp hmem
  have hlt : (remove e.key l).length < l.length :=
    List.length_filter_lt_length_iff_exists.mpr ⟨x, hx, by simp [hkey]⟩
  exact hlt.trans_le h.length_le

/-- **A call leaves distinct keys, and not too many.** -/
theorem Sound.apply (h : Sound capacity l) (now : ℤ) (op : Op κ ν) :
    Sound capacity (apply capacity ttl now l op).2 := by
  cases op with
  | get k =>
    rcases get_cases capacity ttl now l k with ⟨-, heq⟩ | ⟨e, -, -, heq⟩ | ⟨e, hlookup, -, heq⟩
    · rw [heq]
      exact h
    · rw [heq]
      exact h.sublist (remove_sublist k l)
    · rw [heq, ← evict_touch_of_mem h (List.mem_map_of_mem (mem_of_lookup hlookup).1)]
      exact h.evict_touch e
  | put k v => exact h.evict_touch _
  | invalidate k => exact h.sublist (remove_sublist k l)
  | clear => exact h.sublist (List.nil_sublist l)
  | size => exact h

/-! ## Without one key

What a cache holds for other keys does not depend on the calls for one key, as long as there is room for
all keys, so that nothing is evicted. -/

theorem lookup_remove_of_ne {k k' : κ} (hne : k ≠ k') (l : List (Entry κ ν)) :
    lookup k (remove k' l) = lookup k l := by
  rw [lookup, lookup, remove, List.find?_filter]
  congr 1
  funext e
  by_cases hkey : e.key = k
  · simp [hkey, hne]
  · simp [hkey]

theorem remove_remove_self (k : κ) (l : List (Entry κ ν)) : remove k (remove k l) = remove k l := by
  simp [remove]

theorem remove_comm (k k' : κ) (l : List (Entry κ ν)) :
    remove k (remove k' l) = remove k' (remove k l) := by
  simp only [remove, List.filter_filter, Bool.and_comm]

theorem remove_touch_self (e : Entry κ ν) (l : List (Entry κ ν)) :
    remove e.key (touch e l) = remove e.key l := by
  rw [touch, remove, List.filter_cons_of_neg (by simp)]
  exact remove_remove_self e.key l

theorem remove_touch_of_ne {e : Entry κ ν} {k : κ} (hne : e.key ≠ k) (l : List (Entry κ ν)) :
    remove k (touch e l) = touch e (remove k l) := by
  rw [touch, touch, remove_comm]
  exact List.filter_cons_of_pos (by simpa using hne)

/-- A lookup of a key leaves the others. -/
theorem remove_get_self (capacity : ℕ) (ttl now : ℤ) (l : List (Entry κ ν)) (k : κ) :
    remove k (apply capacity ttl now l (.get k)).2 = remove k l := by
  rcases get_cases capacity ttl now l k with ⟨-, heq⟩ | ⟨e, -, -, heq⟩ | ⟨e, hlookup, -, heq⟩
  · rw [heq]
  · rw [heq]
    exact remove_remove_self k l
  · rw [heq, ← (mem_of_lookup hlookup).2]
    exact remove_touch_self e l

/-- A lookup does not depend on another key. -/
theorem get_remove_of_ne (capacity : ℕ) (ttl now : ℤ) (l : List (Entry κ ν)) {k k' : κ} (hne : k ≠ k') :
    apply capacity ttl now (remove k' l) (.get k)
      = ((apply capacity ttl now l (.get k)).1, remove k' (apply capacity ttl now l (.get k)).2) := by
  have hlookup' := lookup_remove_of_ne hne l
  rcases get_cases capacity ttl now l k with ⟨hlookup, heq⟩ | ⟨e, hlookup, hexpired, heq⟩ |
    ⟨e, hlookup, hgood, heq⟩
  · rw [heq]
    simp only [apply, hlookup', hlookup]
  · rw [heq]
    simp only [apply, hlookup', hlookup, hexpired, if_true, remove_comm k k']
  · rw [heq, remove_touch_of_ne ((mem_of_lookup hlookup).2 ▸ hne)]
    simp only [apply, hlookup', hlookup, hgood, if_false]

/-- All keys are among some. -/
def Within (keys : List κ) (l : List (Entry κ ν)) : Prop := ∀ e ∈ l, e.key ∈ keys

theorem Within.touch {keys : List κ} (h : Within keys l) {e : Entry κ ν} (he : e.key ∈ keys) :
    Within keys (touch e l) := by
  intro x hx
  rcases List.mem_cons.mp (touch_subset e l hx) with rfl | hx
  · exact he
  · exact h x hx

theorem Within.get {keys : List κ} (h : Within keys l) (capacity : ℕ) (ttl now : ℤ) (k : κ) :
    Within keys (apply capacity ttl now l (.get k)).2 := by
  rcases get_cases capacity ttl now l k with ⟨-, heq⟩ | ⟨e, -, -, heq⟩ | ⟨e, hlookup, -, heq⟩
  · rw [heq]
    exact h
  · rw [heq]
    exact fun e he => h e ((remove_sublist k l).subset he)
  · rw [heq]
    exact h.touch (h e (mem_of_lookup hlookup).1)

omit [DecidableEq κ] in
/-- With room for all keys, nothing is evicted. -/
theorem Within.evict {keys : List κ} (h : Within keys l) (hnodup : (l.map Entry.key).Nodup)
    (hroom : keys.length ≤ capacity) : evict capacity l = l := by
  refine if_neg (not_lt.mpr ?_)
  have hsub : l.map Entry.key ⊆ keys := by
    intro k hk
    obtain ⟨e, he, rfl⟩ := List.mem_map.mp hk
    exact h e he
  have hlen := (hnodup.subperm hsub).length_le
  rw [List.length_map] at hlen
  exact hlen.trans hroom

/-! ## What the history says -/

/-- The key that a call touches: the one it puts, or looks up with success. -/
def Event.touched (e : Event κ ν) : Option κ :=
  match e.op, e.result with
  | .put k _, _ => some k
  | .get k, .value (some _) => some k
  | _, _ => none

/-- The call puts a key. -/
def Event.puts (k : κ) (e : Event κ ν) : Bool :=
  match e.op with
  | .put k' _ => k' = k
  | _ => false

/-- The call looks up a key without success. -/
def Event.misses (k : κ) (e : Event κ ν) : Bool :=
  match e.op, e.result with
  | .get k', .value none => k' = k
  | _, _ => false

/-- What the latest `put` of a key has stored, and when, unless the key has been invalidated or the cache
cleared after it. -/
def kept (k : κ) (h : List (Event κ ν)) : Option (ν × ℤ) :=
  h.foldl (fun stored e =>
    match e.op with
    | .put k' v => if k' = k then some (v, e.time) else stored
    | .invalidate k' => if k' = k then none else stored
    | .clear => none
    | _ => stored) none

/-- The calls after the latest `put` of a key. -/
def sincePut (k : κ) (h : List (Event κ ν)) : List (Event κ ν) := h.rtakeWhile fun e => !e.puts k

/-- The keys that have been touched since a key was touched last. -/
def touchedSince (k : κ) (h : List (Event κ ν)) : Finset κ :=
  ((h.rtakeWhile fun e => e.touched ≠ some k).filterMap Event.touched).toFinset

variable {h : List (Event κ ν)} {e : Event κ ν} {k k' : κ}

theorem kept_concat (k : κ) (h : List (Event κ ν)) (e : Event κ ν) :
    kept k (h ++ [e]) =
      match e.op with
      | .put k' v => if k' = k then some (v, e.time) else kept k h
      | .invalidate k' => if k' = k then none else kept k h
      | .clear => none
      | _ => kept k h := by
  rw [kept, List.foldl_append]
  rfl

theorem sincePut_concat_of_not_puts (hputs : e.puts k = false) :
    sincePut k (h ++ [e]) = sincePut k h ++ [e] := by
  rw [sincePut, List.rtakeWhile_concat_pos _ _ _ (by simp [hputs]), sincePut]

theorem touchedSince_subset_concat (hother : e.touched ≠ some k) :
    touchedSince k h ⊆ touchedSince k (h ++ [e]) := by
  intro x hx
  rw [touchedSince, List.rtakeWhile_concat_pos _ _ _ (by simpa using hother), List.filterMap_append]
  exact List.mem_toFinset.mpr (List.mem_append_left _ (List.mem_toFinset.mp hx))

theorem mem_touchedSince_concat (hnew : e.touched = some k') (hne : k' ≠ k) :
    k' ∈ touchedSince k (h ++ [e]) := by
  rw [touchedSince, List.rtakeWhile_concat_pos _ _ _ (by simpa [hnew] using hne),
    List.filterMap_append]
  exact List.mem_toFinset.mpr (List.mem_append_right _ (by simp [hnew]))

/-- What the history says about the entries. -/
structure Explained (capacity : ℕ) (l : List (Entry κ ν)) (h : List (Event κ ν)) : Prop
    extends Sound capacity l where
  /-- An entry is what the latest `put` of its key has stored. -/
  kept : ∀ x ∈ l, kept x.key h = some (x.value, x.insertedAt)
  /-- The entries ahead have been touched later. -/
  ahead : l.Pairwise fun x y => x.key ∈ touchedSince y.key h
  /-- A key that is not there, and has not been looked up in vain, has been evicted. -/
  present : ∀ k stored, Recency.kept k h = some stored → (∀ e ∈ sincePut k h, e.misses k = false) →
    k ∈ l.map Entry.key ∨ capacity ≤ (touchedSince k h).card

theorem explained_nil : Explained capacity ([] : List (Entry κ ν)) [] :=
  ⟨⟨by simp, by simp⟩, by simp, by simp, by simp [Recency.kept]⟩

/-- As many keys have been touched since as there are entries ahead. -/
theorem length_le_card_touchedSince {front : List (Entry κ ν)} {x : Entry κ ν}
    (hnodup : (front.map Entry.key).Nodup)
    (hahead : (front ++ [x]).Pairwise fun x y => x.key ∈ touchedSince y.key h) :
    front.length ≤ (touchedSince x.key h).card := by
  have hsubset : (front.map Entry.key).toFinset ⊆ touchedSince x.key h := by
    intro k hk
    obtain ⟨y, hy, rfl⟩ := List.mem_map.mp (List.mem_toFinset.mp hk)
    exact (List.pairwise_append.mp hahead).2.2 y hy x (List.mem_singleton_self x)
  calc front.length = (front.map Entry.key).toFinset.card := by
        rw [List.toFinset_card_of_nodup hnodup, List.length_map]
    _ ≤ (touchedSince x.key h).card := Finset.card_le_card hsubset

/-- A call that touches nothing, and drops entries only if they are no longer kept or have just been looked
up in vain. -/
theorem Explained.shrink {l' : List (Entry κ ν)} (hex : Explained capacity l h)
    (hsub : l'.Sublist l) (huntouched : e.touched = none) (hputs : ∀ k, e.puts k = false)
    (hkept : ∀ x ∈ l', Recency.kept x.key (h ++ [e]) = Recency.kept x.key h)
    (hgone : ∀ k stored, Recency.kept k (h ++ [e]) = some stored → e.misses k = false →
      Recency.kept k h = some stored ∧ (k ∈ l.map Entry.key → k ∈ l'.map Entry.key)) :
    Explained capacity l' (h ++ [e]) := by
  have hmono : ∀ k, touchedSince k h ⊆ touchedSince k (h ++ [e]) := fun k =>
    touchedSince_subset_concat (by simp [huntouched])
  refine ⟨hex.toSound.sublist hsub, ?_, ?_, ?_⟩
  · intro x hx
    rw [hkept x hx]
    exact hex.kept x (hsub.subset hx)
  · exact (hex.ahead.sublist hsub).imp fun hxy => hmono _ hxy
  · intro k stored hstored hmisses
    rw [sincePut_concat_of_not_puts (hputs k)] at hmisses
    have hlast := hmisses e (List.mem_append_right _ (List.mem_singleton_self e))
    obtain ⟨hstored', hstays⟩ := hgone k stored hstored hlast
    rcases hex.present k stored hstored' fun x hx => hmisses x (List.mem_append_left _ hx)
      with hmem | hcard
    · exact .inl (hstays hmem)
    · exact .inr (hcard.trans (Finset.card_le_card (hmono k)))

/-- A call that changes nothing. -/
theorem Explained.idle (hex : Explained capacity l h) (huntouched : e.touched = none)
    (hputs : ∀ k, e.puts k = false) (hkept : ∀ k, Recency.kept k (h ++ [e]) = Recency.kept k h) :
    Explained capacity l (h ++ [e]) := by
  refine hex.shrink (List.Sublist.refl l) huntouched hputs (fun x _ => hkept x.key) ?_
  intro k stored hstored _
  rw [hkept] at hstored
  exact ⟨hstored, id⟩

/-- A call that removes the entry of a key, because it is no longer kept or has been looked up in vain. -/
theorem Explained.remove (hex : Explained capacity l h) (k : κ) (huntouched : e.touched = none)
    (hputs : ∀ k, e.puts k = false)
    (hkept : ∀ k', k' ≠ k → Recency.kept k' (h ++ [e]) = Recency.kept k' h)
    (hgone : Recency.kept k (h ++ [e]) = none ∨ e.misses k = true) :
    Explained capacity (Recency.remove k l) (h ++ [e]) := by
  refine hex.shrink (remove_sublist k l) huntouched hputs ?_ ?_
  · exact fun x hx => hkept x.key (mem_remove_iff.mp hx).2
  · intro k' stored hstored hmisses
    have hne : k' ≠ k := by
      rintro rfl
      rcases hgone with hgone | hgone
      · simp [hgone] at hstored
      · simp [hgone] at hmisses
    rw [hkept k' hne] at hstored
    refine ⟨hstored, fun hmem => ?_⟩
    obtain ⟨y, hy, rfl⟩ := List.mem_map.mp hmem
    exact List.mem_map_of_mem (mem_remove_iff.mpr ⟨hy, hne⟩)

/-- The entry that has just been touched is not evicted. -/
theorem mem_evict_touch (hpos : 1 ≤ capacity) (x : Entry κ ν) (l : List (Entry κ ν)) :
    x ∈ evict capacity (touch x l) := by
  unfold evict touch
  split
  · rename_i hlong
    have hne : remove x.key l ≠ [] := by
      intro hnil
      rw [hnil, List.length_singleton] at hlong
      omega
    rw [List.dropLast_cons_of_ne_nil hne]
    exact List.mem_cons_self
  · exact List.mem_cons_self

/-- A call that touches a key puts its entry in front, and may evict the last one. -/
theorem Explained.touch {x : Entry κ ν} (hex : Explained capacity l h) (hpos : 1 ≤ capacity)
    (htouched : e.touched = some x.key)
    (hkept : Recency.kept x.key (h ++ [e]) = some (x.value, x.insertedAt))
    (hothers : ∀ k ≠ x.key, Recency.kept k (h ++ [e]) = Recency.kept k h ∧ e.puts k = false) :
    Explained capacity (evict capacity (touch x l)) (h ++ [e]) := by
  have hmono : ∀ k ≠ x.key, touchedSince k h ⊆ touchedSince k (h ++ [e]) := fun k hk =>
    touchedSince_subset_concat (by simpa [htouched] using hk.symm)
  have hahead : (Recency.touch x l).Pairwise fun y z => y.key ∈ touchedSince z.key (h ++ [e]) := by
    refine List.pairwise_cons.mpr ⟨fun y hy => ?_, ?_⟩
    · exact mem_touchedSince_concat htouched (mem_remove_iff.mp hy).2.symm
    · refine (hex.ahead.sublist (remove_sublist _ _)).imp_of_mem fun _ hz hyz => ?_
      exact hmono _ (mem_remove_iff.mp hz).2 hyz
  refine ⟨hex.toSound.evict_touch x, ?_, hahead.sublist (evict_sublist _ _), ?_⟩
  · intro y hy
    rcases List.mem_cons.mp ((evict_sublist _ _).subset hy) with rfl | hy
    · exact hkept
    · obtain ⟨hy, hne⟩ := mem_remove_iff.mp hy
      rw [(hothers y.key hne).1]
      exact hex.kept y hy
  · intro k stored hstored hmisses
    by_cases hk : k = x.key
    · exact .inl (List.mem_map.mpr ⟨x, mem_evict_touch hpos x l, hk.symm⟩)
    · obtain ⟨hsame, hputs⟩ := hothers k hk
      rw [hsame] at hstored
      rw [sincePut_concat_of_not_puts hputs] at hmisses
      rcases hex.present k stored hstored fun y hy => hmisses y (List.mem_append_left _ hy)
        with hmem | hcard
      · obtain ⟨y, hy, rfl⟩ := List.mem_map.mp hmem
        have hy' : y ∈ Recency.touch x l := List.mem_cons_of_mem x (mem_remove_iff.mpr ⟨hy, hk⟩)
        unfold evict
        split
        · rename_i hlong
          -- the entry is the last one, and is evicted, or it stays
          have hsplit := List.dropLast_concat_getLast (List.ne_nil_of_mem hy')
          rw [← hsplit] at hahead hy'
          rcases List.mem_append.mp hy' with hy' | hlast
          · exact .inl (List.mem_map_of_mem hy')
          · rw [← List.mem_singleton.mp hlast] at hahead
            have hnodup := (nodup_touch hex.nodup x).sublist ((List.dropLast_sublist _).map _)
            have hlen := length_le_card_touchedSince hnodup hahead
            rw [List.length_dropLast] at hlen
            exact .inr (by omega)
        · exact .inl (List.mem_map_of_mem hy')
      · exact .inr (hcard.trans (Finset.card_le_card (hmono k hk)))

/-- **A call keeps the entries explained.** -/
theorem Explained.apply (hex : Explained capacity l h) (hpos : 1 ≤ capacity) (now : ℤ) (op : Op κ ν) :
    Explained capacity (apply capacity ttl now l op).2
      (h ++ [⟨now, op, (apply capacity ttl now l op).1⟩]) := by
  cases op with
  | get k =>
    rcases get_cases capacity ttl now l k with ⟨-, heq⟩ | ⟨x, -, -, heq⟩ | ⟨x, hlookup, -, heq⟩
    · rw [heq]
      exact hex.idle rfl (fun _ => rfl) fun k' => kept_concat _ _ _
    · rw [heq]
      exact hex.remove k rfl (fun _ => rfl) (fun k' _ => kept_concat _ _ _)
        (.inr (by simp [Event.misses]))
    · -- a hit renews an entry that is there, and nothing is evicted by this
      obtain ⟨hmem, rfl⟩ := mem_of_lookup hlookup
      rw [heq, ← evict_touch_of_mem hex.toSound (List.mem_map_of_mem hmem)]
      refine hex.touch hpos rfl ?_ fun k' _ => ⟨kept_concat _ _ _, rfl⟩
      rw [kept_concat]
      exact hex.kept x hmem
  | put k v =>
    refine hex.touch (x := ⟨k, v, now⟩) hpos rfl ?_ fun k' hk' => ⟨?_, ?_⟩
    · rw [kept_concat]
      exact if_pos rfl
    · rw [kept_concat]
      exact if_neg (Ne.symm hk')
    · exact decide_eq_false (Ne.symm hk')
  | invalidate k =>
    refine hex.remove k rfl (fun _ => rfl) (fun k' hk' => ?_) (.inl ?_)
    · rw [kept_concat]
      exact if_neg hk'.symm
    · rw [kept_concat]
      exact if_pos rfl
  | clear =>
    refine hex.shrink (List.nil_sublist l) rfl (fun _ => rfl) ?_ ?_
    · exact fun x hx => absurd hx List.not_mem_nil
    · intro k' stored hstored _
      rw [kept_concat] at hstored
      simp at hstored
  | size => exact hex.idle rfl (fun _ => rfl) fun k' => kept_concat _ _ _

/-- **The entries of every run are explained by its history.** -/
theorem explained_run (hpos : 1 ≤ capacity) (ttl : ℤ) (calls : List (ℤ × Op κ ν)) :
    Explained capacity (Reactive.run (step capacity ttl) [] calls).1
      (Reactive.run (step capacity ttl) [] calls).2 :=
  Reactive.run_invariant (I := Explained capacity) explained_nil
    (fun _ _ call hex => hex.apply hpos call.1 call.2) calls

/-- What a lookup finds has been stored by the latest `put`, not too long ago. -/
theorem Explained.kept_of_get {now : ℤ} {v : ν} (hex : Explained capacity l h)
    (hget : (Recency.apply capacity ttl now l (.get k)).1 = .value (some v)) :
    ∃ t, Recency.kept k h = some (v, t) ∧ (0 < ttl → now - t ≤ ttl) := by
  rcases get_cases capacity ttl now l k with ⟨-, heq⟩ | ⟨x, -, -, heq⟩ | ⟨x, hlookup, hgood, heq⟩
  · simp [heq] at hget
  · simp [heq] at hget
  · obtain ⟨hmem, rfl⟩ := mem_of_lookup hlookup
    obtain rfl : x.value = v := by simpa [heq] using hget
    exact ⟨x.insertedAt, hex.kept x hmem, fun httl => not_lt.mp fun hlt => hgood ⟨httl, hlt⟩⟩

/-- What the latest `put` has stored is found, unless it is too old, has been missed before, or may have
been evicted. -/
theorem Explained.get_of_kept {now t : ℤ} {v : ν} (hex : Explained capacity l h)
    (hkept : Recency.kept k h = some (v, t)) (hgood : 0 < ttl → now - t ≤ ttl)
    (hmisses : ∀ e ∈ sincePut k h, e.misses k = false)
    (hfew : (touchedSince k h).card < capacity) :
    (Recency.apply capacity ttl now l (.get k)).1 = .value (some v) := by
  have hmem := (hex.present k _ hkept hmisses).resolve_right (not_le.mpr hfew)
  obtain ⟨x, hx, rfl⟩ := List.mem_map.mp hmem
  obtain ⟨rfl, rfl⟩ : v = x.value ∧ t = x.insertedAt := by
    simpa [hex.kept x hx] using hkept.symm
  have hlookup := (lookup_eq_some_iff hex.nodup).mpr ⟨hx, rfl⟩
  have hfresh : ¬ x.Expired ttl now := fun hexpired => by
    have := hgood hexpired.1
    have := hexpired.2
    omega
  simp only [Recency.apply, hlookup, hfresh, if_false]

end Operations

end Recency
