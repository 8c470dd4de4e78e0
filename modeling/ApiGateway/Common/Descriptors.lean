import Mathlib.Logic.Function.Basic
import Mathlib.Tactic.Common

/-!
# Descriptors

The kernel's side of descriptors: a number is opened for something, is used, and is closed, after which it
may be opened again for something else. The calls so far determine the table of open numbers (`after`). In
an orderly sequence of calls no open number is opened again, and only open numbers are used or closed; so
nothing is closed twice, or used after it was closed.
-/

namespace Descriptors

variable {N α : Type*} [DecidableEq N]

inductive Call (N α : Type*) where
  | opened (fd : N) (target : α)
  | used (fd : N)
  | closed (fd : N)

/-- The open numbers, and what they stand for. -/
abbrev Table (N α : Type*) := N → Option α

def Call.apply (table : Table N α) : Call N α → Table N α
  | .opened fd target => Function.update table fd (some target)
  | .used _ => table
  | .closed fd => Function.update table fd none

/-- The table after some calls. -/
def after (table : Table N α) (calls : List (Call N α)) : Table N α := calls.foldl Call.apply table

def Call.Allowed (table : Table N α) : Call N α → Prop
  | .opened fd _ => table fd = none
  | .used fd => table fd ≠ none
  | .closed fd => table fd ≠ none

/-- Every call is allowed when it is made. -/
def Orderly (table : Table N α) : List (Call N α) → Prop
  | [] => True
  | call :: calls => call.Allowed table ∧ Orderly (call.apply table) calls

theorem after_append (table : Table N α) (calls calls' : List (Call N α)) :
    after table (calls ++ calls') = after (after table calls) calls' := List.foldl_append

theorem orderly_append (table : Table N α) (calls calls' : List (Call N α)) :
    Orderly table (calls ++ calls') ↔ Orderly table calls ∧ Orderly (after table calls) calls' := by
  induction calls generalizing table with
  | nil => simp [Orderly, after]
  | cons call calls ih =>
    rw [List.cons_append, Orderly, ih, Orderly, and_assoc]
    rfl

section Log

/-! Calls that are part of a longer log. -/

variable {A : Type*} (call : A → Option (Call N α)) (table : Table N α) (log acts : List A)

theorem after_filterMap_append :
    after table ((log ++ acts).filterMap call)
      = after (after table (log.filterMap call)) (acts.filterMap call) := by
  rw [List.filterMap_append, after_append]

theorem orderly_filterMap_append :
    Orderly table ((log ++ acts).filterMap call) ↔ Orderly table (log.filterMap call) ∧
      Orderly (after table (log.filterMap call)) (acts.filterMap call) := by
  rw [List.filterMap_append, orderly_append]

end Log

/-- Some numbers are closed one after the other. -/
theorem after_closed (table : Table N α) (fds : List N) (fd : N) :
    after table (fds.map .closed) fd = if fd ∈ fds then none else table fd := by
  induction fds generalizing table with
  | nil => simp [after]
  | cons a fds ih =>
    have hstep : after table ((a :: fds).map .closed)
        = after (Function.update table a none) (fds.map .closed) := rfl
    rw [hstep, ih]
    by_cases hfd : fd = a
    · simp [hfd]
    · simp [hfd]

theorem orderly_closed {fds : List N} (hnodup : fds.Nodup) {table : Table N α}
    (hopen : ∀ fd ∈ fds, table fd ≠ none) : Orderly table (fds.map .closed) := by
  induction fds generalizing table with
  | nil => trivial
  | cons fd fds ih =>
    obtain ⟨hfd, hnodup⟩ := List.nodup_cons.mp hnodup
    obtain ⟨hfirst, hrest⟩ := List.forall_mem_cons.mp hopen
    refine ⟨hfirst, ih hnodup fun fd' hfd' => ?_⟩
    have hne : fd' ≠ fd := fun heq => hfd (heq ▸ hfd')
    rw [Call.apply, Function.update_of_ne hne]
    exact hrest fd' hfd'

end Descriptors
