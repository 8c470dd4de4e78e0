import Mathlib.Data.List.Forall2
import Mathlib.Data.List.Nodup
import Mathlib.Data.List.Perm.Basic
import Mathlib.Logic.Function.Basic

/-!
# Entries

A record is written as a list of entries, each a key with its value, and read one entry after the other.
`collect` is what has been read of each key. Where no key comes twice, the order of the entries does not
matter (`collect_perm`), and an entry more or less concerns its own key only (`collect_update`).
-/

namespace Entries

section Collect

variable {κ β : Type*} [DecidableEq κ]

/-- One entry more. -/
def put (f : κ → Option β) (kv : κ × β) : κ → Option β := Function.update f kv.1 (some kv.2)

/-- What has been read of each key. -/
def collect (f : κ → Option β) (l : List (κ × β)) : κ → Option β := l.foldl put f

theorem put_comm (f : κ → Option β) {kv kv' : κ × β} (h : kv.1 = kv'.1 → kv = kv') :
    put (put f kv) kv' = put (put f kv') kv := by
  rcases eq_or_ne kv.1 kv'.1 with heq | hne
  · rw [h heq]
  · exact Function.update_comm hne _ _ f

theorem collect_update {l : List (κ × β)} {k : κ} (hk : k ∉ l.map Prod.fst) (f : κ → Option β)
    (v : Option β) : collect (Function.update f k v) l = Function.update (collect f l) k v := by
  induction l generalizing f with
  | nil => rfl
  | cons kv l ih =>
    rw [List.map_cons, List.mem_cons, not_or] at hk
    have hput : put (Function.update f k v) kv = Function.update (put f kv) k v :=
      Function.update_comm hk.1 _ _ f
    rw [collect, List.foldl_cons, hput]
    exact ih hk.2 _

theorem collect_of_not_mem {l : List (κ × β)} {k : κ} (hk : k ∉ l.map Prod.fst) (f : κ → Option β) :
    collect f l k = f k := by
  have heq := collect_update hk f (f k)
  rw [Function.update_eq_self] at heq
  rw [heq, Function.update_self]

theorem collect_perm {l l' : List (κ × β)} (h : l.Perm l') (hl : (l.map Prod.fst).Nodup)
    (f : κ → Option β) : collect f l = collect f l' := by
  refine h.foldl_eq' (fun kv hkv kv' hkv' f => put_comm f fun heq => ?_) f
  exact List.inj_on_of_nodup_map hl hkv hkv' heq

end Collect

/-- Lists that are related entry by entry can be compared entry by entry. -/
theorem forall₂_iff {α β : Type*} {R P Q : α → β → Prop} {l : List α} {l' : List β}
    (h : List.Forall₂ R l l') (hiff : ∀ a b, R a b → (P a b ↔ Q a b)) :
    List.Forall₂ P l l' ↔ List.Forall₂ Q l l' := by
  induction h with
  | nil => simp only [List.forall₂_nil_left_iff]
  | cons hab _ ih => rw [List.forall₂_cons, List.forall₂_cons, hiff _ _ hab, ih]

end Entries
