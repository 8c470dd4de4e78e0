import Mathlib.Data.List.Nodup
import Mathlib.Tactic.Common

/-!
# Linked lists with stable iterators

A doubly linked list as `std::list` has it. A node keeps its address while it is in the list, whatever
happens to other nodes, and an iterator is an address. Addresses are never used twice, so that an
iterator to an erased node is recognised: operations that would follow it have no result.
-/

/-- The nodes in order, with their addresses, and the next free address. -/
structure LinkedList (α : Type*) where
  nodes : List (ℕ × α) := []
  next : ℕ := 0
  nodup : (nodes.map Prod.fst).Nodup := by simp
  lt_next : ∀ n ∈ nodes, n.1 < next := by exact fun _ h => absurd h List.not_mem_nil

namespace LinkedList

variable {α : Type*} (l : LinkedList α)

/-- What the list holds. -/
def toList : List α := l.nodes.map Prod.snd

/-- The element that an iterator points to. -/
def deref (it : ℕ) : Option α := (l.nodes.find? (·.1 = it)).map Prod.snd

/-- The nodes other than that of an iterator. -/
def others (it : ℕ) : List (ℕ × α) := l.nodes.filter (·.1 ≠ it)

theorem others_sublist (it : ℕ) : (l.others it).Sublist l.nodes := List.filter_sublist

/-- `erase`. -/
def erase (it : ℕ) : Option (LinkedList α) :=
  (l.deref it).map fun _ =>
    { nodes := l.others it
      next := l.next
      nodup := l.nodup.sublist ((l.others_sublist it).map _)
      lt_next := fun n hn => l.lt_next n ((l.others_sublist it).subset hn) }

theorem deref_eq_some_iff (it : ℕ) (a : α) : l.deref it = some a ↔ (it, a) ∈ l.nodes := by
  unfold deref
  constructor
  · intro h
    obtain ⟨⟨it', a'⟩, hfind, rfl⟩ := Option.map_eq_some_iff.mp h
    have hit : it' = it := by simpa using List.find?_some hfind
    exact hit ▸ List.mem_of_find?_eq_some hfind
  · intro hmem
    cases hfind : l.nodes.find? (·.1 = it) with
    | none =>
      have := List.find?_eq_none.mp hfind (it, a) hmem
      simp at this
    | some n =>
      have hn : n.1 = it := by simpa using List.find?_some hfind
      have heq := List.inj_on_of_nodup_map l.nodup (List.mem_of_find?_eq_some hfind) hmem hn
      rw [heq]
      rfl

/-- `splice` of a node to the front. -/
def toFront (it : ℕ) : Option (LinkedList α) :=
  match h : l.deref it with
  | none => none
  | some a => some
    { nodes := (it, a) :: l.others it
      next := l.next
      nodup := by
        rw [List.map_cons, List.nodup_cons]
        refine ⟨?_, l.nodup.sublist ((l.others_sublist it).map _)⟩
        simp [others]
      lt_next := by
        intro n hn
        rcases List.mem_cons.mp hn with rfl | hn
        · exact l.lt_next _ ((l.deref_eq_some_iff it a).mp h)
        · exact l.lt_next n ((l.others_sublist it).subset hn) }

/-- Assign to the element that an iterator points to. -/
def modify (it : ℕ) (f : α → α) : Option (LinkedList α) :=
  (l.deref it).map fun _ =>
    { nodes := l.nodes.map fun n => if n.1 = it then (n.1, f n.2) else n
      next := l.next
      nodup := by
        have hfst : (fun n : ℕ × α => (if n.1 = it then (n.1, f n.2) else n).1) = Prod.fst := by
          funext n
          split <;> rfl
        rw [List.map_map]
        exact (congrArg (fun g => (l.nodes.map g).Nodup) hfst).mpr l.nodup
      lt_next := by
        intro n hn
        obtain ⟨m, hm, rfl⟩ := List.mem_map.mp hn
        have := l.lt_next m hm
        split <;> exact this }

/-- `push_front`, with the iterator to the new node. -/
def pushFront (a : α) : LinkedList α × ℕ :=
  ({ nodes := (l.next, a) :: l.nodes
     next := l.next + 1
     nodup := by
       rw [List.map_cons, List.nodup_cons]
       refine ⟨fun hmem => ?_, l.nodup⟩
       obtain ⟨n, hn, hnext⟩ := List.mem_map.mp hmem
       have := l.lt_next n hn
       omega
     lt_next := by
       intro n hn
       rcases List.mem_cons.mp hn with rfl | hn
       · exact Nat.lt_succ_self _
       · exact Nat.lt_succ_of_lt (l.lt_next n hn) }, l.next)

/-- `back`. -/
def back : Option α := l.toList.getLast?

/-- `pop_back`. -/
def popBack : Option (LinkedList α) :=
  if l.nodes = [] then none
  else some
    { nodes := l.nodes.dropLast
      next := l.next
      nodup := l.nodup.sublist ((List.dropLast_sublist _).map _)
      lt_next := fun n hn => l.lt_next n ((List.dropLast_sublist _).subset hn) }

/-! ## Iterators that can be followed -/

variable {l} {it : ℕ} {a : α}

theorem exists_erase (h : l.deref it = some a) :
    ∃ l', l.erase it = some l' ∧ l'.nodes = l.others it := by
  rw [erase, h]
  exact ⟨_, rfl, rfl⟩

theorem exists_toFront (h : l.deref it = some a) :
    ∃ l', l.toFront it = some l' ∧ l'.nodes = (it, a) :: l.others it := by
  unfold toFront
  split
  · rename_i hnone
    simp [hnone] at h
  · rename_i b hb
    obtain rfl : b = a := by simpa [hb] using h
    exact ⟨_, rfl, rfl⟩

/-- Assigning changes the element, and no other node. -/
theorem exists_modify (h : l.deref it = some a) (f : α → α) :
    ∃ l', l.modify it f = some l' ∧ l'.deref it = some (f a) ∧ l'.others it = l.others it := by
  refine ⟨_, by rw [modify, h]; rfl, ?_, ?_⟩
  · rw [deref_eq_some_iff]
    exact List.mem_map.mpr ⟨(it, a), (l.deref_eq_some_iff it a).mp h, if_pos rfl⟩
  · show (l.nodes.map _).filter _ = l.nodes.filter _
    rw [List.filter_map]
    have hpred : ((fun n : ℕ × α => decide (n.1 ≠ it)) ∘
        fun n => if n.1 = it then (n.1, f n.2) else n) = fun n => decide (n.1 ≠ it) := by
      funext n
      simp only [Function.comp_apply]
      split <;> rfl
    rw [hpred]
    refine (List.map_congr_left fun n hn => ?_).trans (List.map_id _)
    have hne : n.1 ≠ it := by simpa using (List.mem_filter.mp hn).2
    exact if_neg hne

/-- The last node is the one that is removed from the end. -/
theorem exists_back (h : l.nodes ≠ []) :
    ∃ it a l', l.back = some a ∧ l.deref it = some a ∧ l.popBack = some l' ∧
      l'.nodes = l.others it ∧ l'.toList = l.toList.dropLast := by
  obtain ⟨init, ⟨it, a⟩, hsplit⟩ := (List.eq_nil_or_concat' l.nodes).resolve_left h
  refine ⟨it, a, _, ?_, ?_, by rw [popBack, if_neg h], ?_, ?_⟩
  · rw [back, toList, hsplit, List.map_append]
    simp
  · rw [deref_eq_some_iff, hsplit]
    exact List.mem_append_right _ (List.mem_singleton_self _)
  · have hnodup := l.nodup
    rw [hsplit, List.map_append, List.map_singleton, List.nodup_append] at hnodup
    have hkeep : (init.filter fun n => decide (n.1 ≠ it)) = init := by
      refine List.filter_eq_self.mpr fun n hn => ?_
      simpa using hnodup.2.2 n.1 (List.mem_map_of_mem hn) it (List.mem_singleton_self it)
    show l.nodes.dropLast = l.nodes.filter _
    rw [hsplit, List.dropLast_concat, List.filter_append, hkeep]
    simp
  · show l.nodes.dropLast.map _ = (l.nodes.map _).dropLast
    rw [List.map_dropLast]

end LinkedList
