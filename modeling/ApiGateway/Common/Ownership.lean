import Mathlib.Data.Set.Basic
import Mathlib.Tactic.Common

/-!
# Resources with one owner

Resources come to life and die, and are handed from owner to owner. `Sole` says that every resource that
is alive has exactly one owner, and that nobody owns a dead one. A change of the owners keeps this if it
is one of three: one resource goes to an owner (it may come to life by this), some resources die, or
nothing changes.
-/

namespace Ownership

variable {R O : Type*} {owns owns' : R → O → Prop} {live live' : R → Prop}

/-- Resources that are alive have one owner, and the others have none. -/
structure Sole (owns : R → O → Prop) (live : R → Prop) : Prop where
  existsUnique : ∀ r, live r → ∃! o, owns r o
  alive : ∀ r o, owns r o → live r

theorem Sole.eq (h : Sole owns live) {r : R} {o o' : O} (ho : owns r o) (ho' : owns r o') : o = o' :=
  (h.existsUnique r (h.alive r o ho)).unique ho ho'

theorem Sole.congr (h : Sole owns live) (howns : ∀ r o, owns' r o ↔ owns r o)
    (hlive : ∀ r, live' r ↔ live r) : Sole owns' live' where
  existsUnique r hr := (existsUnique_congr (howns r)).mpr (h.existsUnique r ((hlive r).mp hr))
  alive r o ho := (hlive r).mpr (h.alive r o ((howns r o).mp ho))

/-- A resource is given to an owner. -/
theorem Sole.give (h : Sole owns live) {r : R} {o : O} (hnew : ∀ o', owns' r o' ↔ o' = o)
    (howns : ∀ r' o', r' ≠ r → (owns' r' o' ↔ owns r' o'))
    (hlive : ∀ r', live' r' ↔ r' = r ∨ live r') : Sole owns' live' where
  existsUnique r' hr' := by
    by_cases heq : r' = r
    · subst heq
      exact ⟨o, (hnew o).mpr rfl, fun o' ho' => (hnew o').mp ho'⟩
    · rw [existsUnique_congr fun o' => howns r' o' heq]
      exact h.existsUnique r' (((hlive r').mp hr').resolve_left heq)
  alive r' o' ho' := by
    rw [hlive]
    by_cases heq : r' = r
    · exact .inl heq
    · exact .inr (h.alive r' o' ((howns r' o' heq).mp ho'))

/-- Some resources die. -/
theorem Sole.drop (h : Sole owns live) (dead : R → Prop)
    (howns : ∀ r o, owns' r o ↔ ¬ dead r ∧ owns r o)
    (hlive : ∀ r, live' r ↔ ¬ dead r ∧ live r) : Sole owns' live' where
  existsUnique r hr := by
    obtain ⟨hdead, hlive⟩ := (hlive r).mp hr
    rw [existsUnique_congr fun o => (howns r o).trans (and_iff_right hdead)]
    exact h.existsUnique r hlive
  alive r o ho := by
    obtain ⟨hdead, ho⟩ := (howns r o).mp ho
    exact (hlive r).mpr ⟨hdead, h.alive r o ho⟩

end Ownership
