import Panoptes.Lib.SortedMap

/-!
# Columns of a key-value store

A column is a sorted map; its keys may be pairs, in lexicographic order.  A batch of writes reaches
it at once.

* `putAll` — the writes of a batch to one column, in order.
* `VisitOrder` — the order in which a hash map happens to visit its keys.
-/

set_option autoImplicit false

namespace Panoptes.Lib

open Std (ExtTreeMap ExtTreeSet)

instance instLawfulEqOrdLex {α β : Type} [Ord α] [Ord β] [Std.LawfulEqOrd α] [Std.LawfulEqOrd β] :
    Std.LawfulEqOrd (α ×ₗ β) where
  compare_self {a} := by
    have h : (compare (ofLex a).1 (ofLex a).1).then (compare (ofLex a).2 (ofLex a).2) = .eq := by
      rw [Std.ReflOrd.compare_self, Std.ReflOrd.compare_self]
      rfl
    exact h
  eq_of_compare {a b} h := by
    have hthen : (compare (ofLex a).1 (ofLex b).1).then (compare (ofLex a).2 (ofLex b).2) = .eq := h
    rw [Ordering.then_eq_eq] at hthen
    exact Prod.ext (Std.LawfulEqOrd.eq_of_compare hthen.1) (Std.LawfulEqOrd.eq_of_compare hthen.2)

section Writes

variable {α β : Type} [DecidableEq α] [Ord α] [Std.TransOrd α] [Std.LawfulEqOrd α]

variable {m : ExtTreeMap α β} {puts : List (α × β)} {k : α}

/-- The writes of a batch to a column. -/
def putAll (m : ExtTreeMap α β) (puts : List (α × β)) : ExtTreeMap α β :=
  puts.foldl (fun m put => m.insert put.1 put.2) m

omit [DecidableEq α] [Std.LawfulEqOrd α] in
theorem putAll_append (m : ExtTreeMap α β) (puts puts' : List (α × β)) :
    putAll m (puts ++ puts') = putAll (putAll m puts) puts' := List.foldl_append

theorem getElem?_putAll_of_not_mem (h : ∀ put ∈ puts, put.1 ≠ k) : (putAll m puts)[k]? = m[k]? := by
  induction puts generalizing m with
  | nil => rfl
  | cons put puts ih =>
    have hne : k ≠ put.1 := (h put List.mem_cons_self).symm
    refine (ih fun p hp => h p (List.mem_cons_of_mem _ hp)).trans ?_
    rw [getElem?_insert_ite, if_neg hne]

/-- A key that is written, and always with the same value. -/
theorem getElem?_putAll_of_mem {v : β} (hmem : (k, v) ∈ puts)
    (hsame : ∀ put ∈ puts, put.1 = k → put.2 = v) : (putAll m puts)[k]? = some v := by
  induction puts generalizing m with
  | nil => cases hmem
  | cons put puts ih =>
    have hrest : ∀ p ∈ puts, p.1 = k → p.2 = v := fun p hp => hsame p (List.mem_cons_of_mem _ hp)
    by_cases hlater : (k, v) ∈ puts
    · exact ih hlater hrest
    · have hput : put = (k, v) := by
        rcases List.mem_cons.mp hmem with h | h
        · exact h.symm
        · exact absurd h hlater
      have hnot : ∀ p ∈ puts, p.1 ≠ k := by
        intro p hp hk
        have hv := hrest p hp hk
        exact hlater (by rw [← hk, ← hv]; exact hp)
      refine (getElem?_putAll_of_not_mem hnot).trans ?_
      rw [hput, getElem?_insert_ite, if_pos rfl]

end Writes

/-- The order in which a hash map visits its keys. -/
structure VisitOrder (κ : Type) where
  visit : List κ → List κ
  perm : ∀ keys, (visit keys).Perm keys

end Panoptes.Lib
