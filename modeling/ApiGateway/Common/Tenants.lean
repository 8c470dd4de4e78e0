import ApiGateway.Common.Descriptors
import ApiGateway.Common.Interleaving
import ApiGateway.Common.Reactive
import Mathlib.Data.Set.Insert

/-!
# Tenants of one table of descriptors

Several machines share the numbers of one kernel. A call is told apart by the tenant that makes it, and the
table says which tenant has opened a number (`owners`). Calls are respectful if a tenant opens only numbers
that are free, and uses and closes only numbers that it has opened itself. The part of the table that belongs
to one tenant is the table that its own calls make (`after_own`). So tenants that are orderly on their own,
and get no number that is open, are respectful together (`respectful_run`): whatever numbers the kernel uses
again, no tenant closes a descriptor of another one.

`Opens` says that some calls are orderly and which numbers they leave open. A tenant may keep a table of its own
for a part of its numbers (`Opens.part`).
-/

namespace Tenants

open Descriptors Interleaving

variable {N ι : Type*}

/-! ## Calls of several tenants -/

section Table

variable [DecidableEq N]

def apply (table : Table N ι) : ι × Call N Unit → Table N ι
  | (i, .opened fd _) => Function.update table fd (some i)
  | (_, .used _) => table
  | (_, .closed fd) => Function.update table fd none

/-- The tenants of the open numbers after some calls. -/
def owners (table : Table N ι) (calls : List (ι × Call N Unit)) : Table N ι := calls.foldl apply table

def Allowed (table : Table N ι) : ι × Call N Unit → Prop
  | (_, .opened fd _) => table fd = none
  | (i, .used fd) => table fd = some i
  | (i, .closed fd) => table fd = some i

/-- Nobody touches what belongs to somebody else. -/
def Respectful (table : Table N ι) : List (ι × Call N Unit) → Prop
  | [] => True
  | call :: calls => Allowed table call ∧ Respectful (apply table call) calls

theorem respectful_append (table : Table N ι) (calls calls' : List (ι × Call N Unit)) :
    Respectful table (calls ++ calls') ↔
      Respectful table calls ∧ Respectful (owners table calls) calls' := by
  induction calls generalizing table with
  | nil => simp [Respectful, owners]
  | cons call calls ih =>
    rw [List.cons_append, Respectful, ih, Respectful, and_assoc]
    rfl

end Table

section Holding

variable [DecidableEq ι]

/-- The numbers of one tenant. -/
def holding (table : Table N ι) (i : ι) : Table N Unit :=
  fun fd => if table fd = some i then some () else none

theorem holding_ne_none_iff {table : Table N ι} {i : ι} {fd : N} :
    holding table i fd ≠ none ↔ table fd = some i := by
  simp [holding]

end Holding

/-! ## The part of a tenant -/

variable [DecidableEq N] [DecidableEq ι]

/-- One call changes the part of the tenant that makes it, as the call does, and no other part. -/
theorem holding_apply {table : Table N ι} {call : ι × Call N Unit} (h : Allowed table call) (i : ι) :
    holding (apply table call) i
      = if call.1 = i then call.2.apply (holding table i) else holding table i := by
  obtain ⟨j, call⟩ := call
  ext1 fd
  cases call with
  | opened fd' _ =>
    have hfree : table fd' = none := h
    by_cases hfd : fd = fd'
    · subst hfd
      by_cases hji : j = i <;> simp [holding, apply, Call.apply, hji, hfree]
    · by_cases hji : j = i <;> simp [holding, apply, Call.apply, hji, hfd]
  | used fd' =>
    show holding table i fd = (if j = i then holding table i else holding table i) fd
    rw [ite_self]
  | closed fd' =>
    have howner : table fd' = some j := h
    by_cases hfd : fd = fd'
    · subst hfd
      by_cases hji : j = i <;> simp [holding, apply, Call.apply, hji, howner]
    · by_cases hji : j = i <;> simp [holding, apply, Call.apply, hji, hfd]

/-- **The part of a tenant is made by its own calls.** -/
theorem after_own {table : Table N ι} {calls : List (ι × Call N Unit)} (h : Respectful table calls) (i : ι) :
    after (holding table i) (own i calls) = holding (owners table calls) i := by
  induction calls generalizing table with
  | nil => rfl
  | cons call calls ih =>
    have hrest := ih h.2
    rw [holding_apply h.1] at hrest
    rw [own_cons]
    by_cases hi : call.1 = i
    · rw [if_pos hi] at hrest ⊢
      exact hrest
    · rw [if_neg hi] at hrest ⊢
      exact hrest

/-- What is allowed in a tenant's own part is allowed, if nothing is opened that belongs to another one. -/
theorem respectful_map {table : Table N ι} {i : ι} {calls : List (Call N Unit)}
    (horderly : Orderly (holding table i) calls)
    (hfree : ∀ fd target, .opened fd target ∈ calls → ∀ j, table fd = some j → j = i) :
    Respectful table (calls.map (i, ·)) := by
  induction calls generalizing table with
  | nil => trivial
  | cons call calls ih =>
    obtain ⟨hcall, hrest⟩ := horderly
    have hallowed : Allowed table (i, call) := by
      cases call with
      | opened fd target =>
        have hnot : ¬ table fd = some i := fun heq => holding_ne_none_iff.mpr heq hcall
        cases hfd : table fd with
        | none => exact hfd
        | some j => exact absurd (hfree fd target List.mem_cons_self j hfd ▸ hfd) hnot
      | used fd => exact holding_ne_none_iff.mp hcall
      | closed fd => exact holding_ne_none_iff.mp hcall
    refine ⟨hallowed, ih ?_ ?_⟩
    · rwa [holding_apply hallowed, if_pos rfl]
    · -- only this tenant's numbers change
      intro fd target hmem j hj
      cases call with
      | opened fd' _ =>
        by_cases hfd : fd = fd'
        · subst hfd
          simpa [apply, eq_comm] using hj
        · exact hfree fd target (List.mem_cons_of_mem _ hmem) j (by simpa [apply, hfd] using hj)
      | used fd' => exact hfree fd target (List.mem_cons_of_mem _ hmem) j hj
      | closed fd' =>
        by_cases hfd : fd = fd'
        · subst hfd
          simp [apply] at hj
        · exact hfree fd target (List.mem_cons_of_mem _ hmem) j (by simpa [apply, hfd] using hj)

/-! ## Machines -/

section Machines

variable {S E : ι → Type*} (step : ∀ i, S i → E i → S i × List (Call N Unit))

/-- All tenants together: an event is for one of them. -/
def stepAll (s : ∀ i, S i) (e : Σ i, E i) : (∀ i, S i) × List (ι × Call N Unit) :=
  (Function.update s e.1 (step e.1 (s e.1) e.2).1, (step e.1 (s e.1) e.2).2.map (e.1, ·))

/-- The rule for all of them: each tenant's surroundings keep to its rule, and the kernel opens no number that
is open. -/
def Granted (table : Table N ι) (ok : ∀ i, S i → List (Call N Unit) → E i → Prop) (s : ∀ i, S i)
    (calls : List (ι × Call N Unit)) (e : Σ i, E i) : Prop :=
  ok e.1 (s e.1) (own e.1 calls) e.2 ∧
    ∀ fd target, .opened fd target ∈ (step e.1 (s e.1) e.2).2 → owners table calls fd = none

variable {step} {table : Table N ι} {ok : ∀ i, S i → List (Call N Unit) → E i → Prop}
  {I : ∀ i, S i → List (Call N Unit) → Prop}

/-- **Tenants that are orderly on their own are respectful together**, and each one keeps its invariant. -/
theorem respectful_run
    (hkeeps : ∀ i s calls e, I i s calls → ok i s calls e →
      (∀ fd target, .opened fd target ∈ (step i s e).2 → after (holding table i) calls fd = none) →
      I i (step i s e).1 (calls ++ (step i s e).2))
    (horderly : ∀ i s calls, I i s calls → Orderly (holding table i) calls)
    {s : ∀ i, S i} (hstart : ∀ i, I i (s i) []) {es : List (Σ i, E i)}
    (hes : Reactive.Obeys (stepAll step) (Granted step table ok) s [] es) :
    let r := Reactive.run (stepAll step) s es
    Respectful table r.2 ∧ ∀ i, I i (r.1 i) (own i r.2) := by
  refine Reactive.Obeys.invariant
    (I := fun s calls => Respectful table calls ∧ ∀ i, I i (s i) (own i calls)) ?_ hes ⟨trivial, hstart⟩
  rintro s calls ⟨i, e⟩ ⟨hrespectful, hinv⟩ ⟨hok, hfree⟩
  have hown := after_own hrespectful i
  have hnew : I i (step i (s i) e).1 (own i calls ++ (step i (s i) e).2) := by
    refine hkeeps i _ _ e (hinv i) hok fun fd target hmem => ?_
    rw [hown, holding, hfree fd target hmem, if_neg (by simp)]
  constructor
  · rw [respectful_append]
    refine ⟨hrespectful, respectful_map ?_ fun fd target hmem j hj => ?_⟩
    · rw [← hown]
      exact ((orderly_append _ _ _).mp (horderly i _ _ hnew)).2
    · rw [hfree fd target hmem] at hj
      cases hj
  · intro j
    rw [own_append]
    by_cases hij : i = j
    · subst hij
      simpa [stepAll, own_map_self] using hnew
    · simpa [stepAll, own_map_of_ne hij, Ne.symm hij] using hinv j

end Machines

/-! ## The open numbers of a tenant -/

/-- Orderly calls that leave these numbers open. -/
structure Opens (calls : List (Call N Unit)) (s : Set N) : Prop where
  orderly : Orderly (fun _ => none) calls
  open_iff : ∀ fd, after (fun _ => none) calls fd ≠ none ↔ fd ∈ s

/-- A call without what it opens the number for. -/
def forget {α : Type*} : Call N α → Call N Unit
  | .opened fd _ => .opened fd ()
  | .used fd => .used fd
  | .closed fd => .closed fd

omit [DecidableEq ι]

theorem opens_nil : Opens ([] : List (Call N Unit)) ∅ := ⟨trivial, by simp [after]⟩

namespace Opens

variable {calls : List (Call N Unit)} {s : Set N} {fd : N}

theorem congr {s' : Set N} (h : Opens calls s) (hs : ∀ fd, fd ∈ s' ↔ fd ∈ s) : Opens calls s' :=
  ⟨h.orderly, fun fd => (h.open_iff fd).trans (hs fd).symm⟩

theorem opened (h : Opens calls s) (hfd : fd ∉ s) (target : Unit) :
    Opens (calls ++ [.opened fd target]) (insert fd s) where
  orderly := by
    have hfree : after (fun _ => none) calls fd = none := by simpa using mt (h.open_iff fd).mp hfd
    exact (orderly_append _ _ _).mpr ⟨h.orderly, hfree, trivial⟩
  open_iff fd' := by
    rw [after_append]
    by_cases heq : fd' = fd
    · simp [after, Call.apply, heq]
    · simpa [after, Call.apply, heq] using h.open_iff fd'

theorem used (h : Opens calls s) (hfd : fd ∈ s) : Opens (calls ++ [.used fd]) s where
  orderly := (orderly_append _ _ _).mpr ⟨h.orderly, (h.open_iff fd).mpr hfd, trivial⟩
  open_iff fd' := by
    rw [after_append]
    exact h.open_iff fd'

theorem uses (h : Opens calls s) {new : List (Call N Unit)} (hnew : ∀ call ∈ new, ∃ fd ∈ s, call = .used fd) :
    Opens (calls ++ new) s := by
  induction new generalizing calls with
  | nil => rwa [List.append_nil]
  | cons call new ih =>
    obtain ⟨⟨fd, hfd, rfl⟩, hrest⟩ := List.forall_mem_cons.mp hnew
    have hnext := ih (h.used hfd) hrest
    rwa [List.append_assoc] at hnext

theorem closed (h : Opens calls s) (hfd : fd ∈ s) : Opens (calls ++ [.closed fd]) (s \ {fd}) where
  orderly := (orderly_append _ _ _).mpr ⟨h.orderly, (h.open_iff fd).mpr hfd, trivial⟩
  open_iff fd' := by
    rw [after_append]
    by_cases heq : fd' = fd
    · simp [after, Call.apply, heq]
    · simpa [after, Call.apply, heq] using h.open_iff fd'

/-- **A part of the numbers has a table of its own**, and what is orderly there is orderly. -/
theorem part {α : Type*} {t : Table N α} {rest : Set N} {new : List (Call N α)}
    (h : Opens calls ({fd | t fd ≠ none} ∪ rest)) (hrest : ∀ fd ∈ rest, t fd = none)
    (hnew : Orderly t new) (hfresh : ∀ fd target, .opened fd target ∈ new → fd ∉ rest) :
    Opens (calls ++ new.map forget) ({fd | after t new fd ≠ none} ∪ rest) ∧
      ∀ fd ∈ rest, after t new fd = none := by
  induction new generalizing calls t with
  | nil => exact ⟨by simpa [after] using h, hrest⟩
  | cons call new ih =>
    obtain ⟨hcall, hnew⟩ := hnew
    have hlater : ∀ fd target, .opened fd target ∈ new → fd ∉ rest := fun fd target hmem =>
      hfresh fd target (List.mem_cons_of_mem _ hmem)
    -- the call changes the part as it changes its table
    have hopens : Opens (calls ++ [forget call]) ({fd | call.apply t fd ≠ none} ∪ rest) ∧
        ∀ fd ∈ rest, call.apply t fd = none := by
      cases call with
      | opened fd target =>
        have hfd : fd ∉ rest := hfresh fd target List.mem_cons_self
        have hfree : t fd = none := hcall
        refine ⟨(h.opened (by simp [hfree, hfd]) ()).congr fun fd' => ?_, fun fd' hmem => ?_⟩
        · by_cases heq : fd' = fd
          · simp [Call.apply, heq]
          · simp [Call.apply, heq]
        · have hne : fd' ≠ fd := fun heq => hfd (heq ▸ hmem)
          simpa [Call.apply, hne] using hrest fd' hmem
      | used fd => exact ⟨h.used (.inl hcall), hrest⟩
      | closed fd =>
        have hfd : fd ∉ rest := fun hmem => hcall (hrest fd hmem)
        refine ⟨(h.closed (.inl hcall)).congr fun fd' => ?_, fun fd' hmem => ?_⟩
        · by_cases heq : fd' = fd
          · simp [Call.apply, heq, hfd]
          · simp [Call.apply, heq]
        · have hne : fd' ≠ fd := fun heq => hfd (heq ▸ hmem)
          simpa [Call.apply, hne] using hrest fd' hmem
    have hnext := ih hopens.1 hopens.2 hnew hlater
    rwa [List.append_assoc] at hnext

end Opens

end Tenants
