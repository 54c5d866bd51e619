import Panoptes.Lib.Fault

/-!
# Sums and loops over a sorted map

* `mapSum` — the sum of a quantity over the entries of a map, with `mapSum_insert` for an entry that
  is written and `mapSum_eq_sum` to compare maps with different keys.
* `returns_foldlM_descending` — the rule for a loop over the entries from the greatest key down: the
  step at a key may assume that the greater keys are done.
* `returns_foldlM_ascending` — the same from the smallest key up.
-/

set_option autoImplicit false

namespace Panoptes.Lib

open Std.ExtTreeMap

open Finset

open Std (ExtTreeMap ExtTreeSet)

section Sums

variable {α β : Type} [DecidableEq α] [Ord α] [Std.TransOrd α] [Std.LawfulEqOrd α]
  {m : ExtTreeMap α β} {k : α} {g : α → β → Nat}

/-- The sum of `g` over the entries of a map. -/
def mapSum (m : ExtTreeMap α β) (g : α → β → Nat) : Nat :=
  ∑ k ∈ m.keys.toFinset, (m[k]?).elim 0 (g k)

theorem mem_keys_toFinset : k ∈ m.keys.toFinset ↔ m[k]? ≠ none := by
  rw [List.mem_toFinset, mem_keys, ← isSome_getElem?_iff_mem, Option.isSome_iff_ne_none]

theorem getElem?_insert_ite (m : ExtTreeMap α β) (k a : α) (v : β) :
    (m.insert k v)[a]? = if a = k then some v else m[a]? := by
  rw [getElem?_insert]
  by_cases h : a = k
  · rw [if_pos h, if_pos (Std.LawfulEqOrd.compare_eq_iff_eq.mpr h.symm)]
  · rw [if_neg h, if_neg fun hc => h (Std.LawfulEqOrd.compare_eq_iff_eq.mp hc).symm]

theorem getElem?_insert_eq_some {m : ExtTreeMap α β} {k a : α} {v b : β}
    (h : (m.insert k v)[a]? = some b) : a = k ∧ v = b ∨ m[a]? = some b := by
  rw [getElem?_insert_ite] at h
  split at h
  · exact .inl ⟨‹_›, Option.some.inj h⟩
  · exact .inr h

theorem getElem?_erase_ite (m : ExtTreeMap α β) (k a : α) :
    (m.erase k)[a]? = if a = k then none else m[a]? := by
  rw [getElem?_erase]
  by_cases h : a = k
  · rw [if_pos h, if_pos (Std.LawfulEqOrd.compare_eq_iff_eq.mpr h.symm)]
  · rw [if_neg h, if_neg fun hc => h (Std.LawfulEqOrd.compare_eq_iff_eq.mp hc).symm]

theorem getElem?_of_erase {m : ExtTreeMap α β} {k a : α} {b : β} (h : (m.erase k)[a]? = some b) :
    m[a]? = some b := by
  rw [getElem?_erase_ite] at h
  split at h
  · cases h
  · exact h

omit [DecidableEq α] in
theorem mem_insert_set {t : ExtTreeSet α} {a : α} : a ∈ t.insert k ↔ a = k ∨ a ∈ t := by
  rw [ExtTreeSet.mem_insert, Std.LawfulEqOrd.compare_eq_iff_eq, eq_comm]

omit [DecidableEq α] in
theorem nodup_toList_set (t : ExtTreeSet α) : t.toList.Nodup := by
  refine (ExtTreeSet.distinct_toList (t := t)).imp fun h heq => h ?_
  exact Std.LawfulEqOrd.compare_eq_iff_eq.mpr heq

theorem mapSum_eq_sum (g : α → β → Nat) (keys : Finset α)
    (h : ∀ k, m[k]? ≠ none → k ∈ keys) : mapSum m g = ∑ k ∈ keys, (m[k]?).elim 0 (g k) := by
  refine sum_subset (fun k hk => h k (mem_keys_toFinset.mp hk)) fun k _ hk => ?_
  rw [not_not.mp (mt mem_keys_toFinset.mpr hk)]
  rfl

theorem mapSum_of_agree_off {m' : ExtTreeMap α β} (g : α → β → Nat)
    (h : ∀ a, a ≠ k → m'[a]? = m[a]?) :
    mapSum m' g + (m[k]?).elim 0 (g k) = mapSum m g + (m'[k]?).elim 0 (g k) := by
  have hkeys : ∀ a, m'[a]? ≠ none → a ∈ insert k m.keys.toFinset := by
    intro a ha
    by_cases hak : a = k
    · exact hak ▸ mem_insert_self _ _
    · exact mem_insert_of_mem (mem_keys_toFinset.mpr (h a hak ▸ ha))
  have hrest : ∀ a ∈ (insert k m.keys.toFinset).erase k, (m'[a]?).elim 0 (g a) =
      (m[a]?).elim 0 (g a) := by
    intro a ha
    rw [h a (ne_of_mem_erase ha)]
  have hmem : k ∈ insert k m.keys.toFinset := mem_insert_self _ _
  rw [mapSum_eq_sum g _ hkeys,
    mapSum_eq_sum g _ fun a ha => mem_insert_of_mem (mem_keys_toFinset.mpr ha),
    ← add_sum_erase _ _ hmem, ← add_sum_erase _ (fun a => (m[a]?).elim 0 (g a)) hmem,
    sum_congr rfl hrest]
  omega

/-- **Writing an entry** trades the share of the old value for that of the new one. -/
theorem mapSum_insert (m : ExtTreeMap α β) (g : α → β → Nat) (k : α) (v : β) :
    mapSum (m.insert k v) g + (m[k]?).elim 0 (g k) = mapSum m g + g k v := by
  have hoff : ∀ a, a ≠ k → (m.insert k v)[a]? = m[a]? := fun a ha => by
    rw [getElem?_insert_ite, if_neg ha]
  have h := mapSum_of_agree_off g hoff
  rwa [getElem?_insert_ite, if_pos rfl, Option.elim_some] at h

/-- **Removing an entry** takes its share away. -/
theorem mapSum_erase (m : ExtTreeMap α β) (g : α → β → Nat) (k : α) :
    mapSum (m.erase k) g + (m[k]?).elim 0 (g k) = mapSum m g := by
  have hoff : ∀ a, a ≠ k → (m.erase k)[a]? = m[a]? := fun a ha => by
    rw [getElem?_erase_ite, if_neg ha]
  have h := mapSum_of_agree_off g hoff
  rwa [getElem?_erase_ite, if_pos rfl, Option.elim_none] at h

/-- Entries of two maps that agree in their shares add up to the same. -/
theorem mapSum_congr {γ : Type} {m' : ExtTreeMap α γ} {g' : α → γ → Nat}
    (h : ∀ k, (m[k]?).elim 0 (g k) = (m'[k]?).elim 0 (g' k)) :
    mapSum m g = mapSum m' g' := by
  rw [mapSum_eq_sum g (m.keys.toFinset ∪ m'.keys.toFinset) fun k hk =>
      mem_union_left _ (mem_keys_toFinset.mpr hk),
    mapSum_eq_sum g' (m.keys.toFinset ∪ m'.keys.toFinset) fun k hk =>
      mem_union_right _ (mem_keys_toFinset.mpr hk)]
  exact sum_congr rfl fun k _ => h k

omit [Std.LawfulEqOrd α] in
theorem mapSum_le {g' : α → β → Nat} (h : ∀ k b, g k b ≤ g' k b) : mapSum m g ≤ mapSum m g' := by
  refine sum_le_sum fun k _ => ?_
  cases m[k]? with
  | none => exact le_rfl
  | some b => exact h k b

omit [Std.LawfulEqOrd α] in
theorem mapSum_add (m : ExtTreeMap α β) (g g' : α → β → Nat) :
    mapSum m (fun k b => g k b + g' k b) = mapSum m g + mapSum m g' := by
  unfold mapSum
  rw [← sum_add_distrib]
  refine sum_congr rfl fun k _ => ?_
  cases m[k]? with
  | none => rfl
  | some b => rfl

/-- A sum over some of the entries is at most the sum over all of them. -/
theorem sum_le_mapSum (g : α → β → Nat) (keys : Finset α) :
    ∑ k ∈ keys, (m[k]?).elim 0 (g k) ≤ mapSum m g := by
  rw [mapSum_eq_sum g (keys ∪ m.keys.toFinset) fun k hk =>
    mem_union_right _ (mem_keys_toFinset.mpr hk)]
  exact sum_le_sum_of_subset subset_union_left

end Sums

section Entries

variable {α β : Type} [Ord α] [Std.TransOrd α] [Std.LawfulEqOrd α] {m : ExtTreeMap α β}

theorem getElem?_of_mem_toList {entry : α × β} (h : entry ∈ m.toList) :
    m[entry.1]? = some entry.2 :=
  mem_toList_iff_getElem?_eq_some.mp h

theorem exists_mem_toList {k : α} {v : β} (h : m[k]? = some v) : (k, v) ∈ m.toList :=
  mem_toList_iff_getElem?_eq_some.mpr h

theorem nodup_keys_toList (m : ExtTreeMap α β) : (m.toList.map Prod.fst).Nodup := by
  refine List.pairwise_map.mpr ((distinct_keys_toList).imp fun h heq => h ?_)
  rw [heq]
  exact Std.ReflCmp.compare_self

end Entries

section Loops

variable {α β ε σ : Type} [LinearOrder α] {m : ExtTreeMap α β} {f : σ → α × β → Except ε σ} {s : σ}
  {P : (α → Prop) → σ → Prop} {E : ε → Prop}

theorem toList_sorted (m : ExtTreeMap α β) : m.toList.Pairwise fun a b => a.1 < b.1 := by
  refine (ordered_keys_toList).imp fun h => ?_
  exact compare_lt_iff_lt.mp h

/-- The rule for a loop over the entries in some strict order of the keys: the step at a key may
assume that the keys before it are done. -/
theorem returns_foldlM_sorted (before : α → α → Prop) (hirrefl : ∀ a, ¬ before a a)
    (hasymm : ∀ a b, before a b → ¬ before b a) {l : List (α × β)}
    (hl : ∀ entry, entry ∈ l ↔ m[entry.1]? = some entry.2)
    (hsorted : l.Pairwise fun a b => before a.1 b.1)
    (hcongr : ∀ D D' s, (∀ k, m[k]? ≠ none → (D k ↔ D' k)) → P D s → P D' s)
    (hs : P (fun _ => False) s) (hstep : ∀ k v s, m[k]? = some v → P (fun a => before a k) s →
      Returns (f s (k, v)) (P fun a => a = k ∨ before a k) E) :
    Returns (l.foldlM f s) (P fun _ => True) E := by
  -- the keys that are done are those of the elements of the list that are done
  have hdone : ∀ pre post, l = pre ++ post → ∀ k v, (k, v) ∈ post → ∀ k', m[k']? ≠ none →
      ((∃ v', (k', v') ∈ pre) → before k' k) := by
    intro pre post hsplit k v hk k' _ ⟨v', hk'⟩
    rw [hsplit] at hsorted
    exact (List.pairwise_append.mp hsorted).2.2 _ hk' _ hk
  have hrun := Returns.foldlM (P := fun pre s => P (fun k => ∃ v, (k, v) ∈ pre) s) (E := E) (f := f)
    l [] (hcongr _ _ _ (fun k _ => by simp) hs) ?_
  · refine hrun.imp fun s' hs' => hcongr _ _ _ (fun k hk => ?_) hs'
    obtain ⟨v, hv⟩ := Option.ne_none_iff_exists'.mp hk
    exact ⟨fun _ => trivial, fun _ => ⟨v, (hl (k, v)).mpr hv⟩⟩
  · rintro pre ⟨k, v⟩ post s hsplit hP
    rw [List.nil_append] at hsplit
    have hmem : m[k]? = some v := (hl (k, v)).mp (by rw [hsplit]; simp)
    have hafter : ∀ k', m[k']? ≠ none → before k' k → ∃ v', (k', v') ∈ pre := by
      intro k' hk' hlt
      obtain ⟨v', hv'⟩ := Option.ne_none_iff_exists'.mp hk'
      have hin : (k', v') ∈ pre ++ (k, v) :: post := hsplit ▸ (hl (k', v')).mpr hv'
      rcases List.mem_append.mp hin with h | h
      · exact ⟨v', h⟩
      · rw [hsplit] at hsorted
        rcases List.mem_cons.mp h with h | h
        · cases h
          exact absurd hlt (hirrefl _)
        · exact absurd hlt
            (hasymm _ _ ((List.pairwise_cons.mp (List.pairwise_append.mp hsorted).2.1).1 _ h))
    have hbefore := hdone pre ((k, v) :: post) hsplit k v (List.mem_cons_self ..)
    have hP' : P (fun a => before a k) s :=
      hcongr _ _ _ (fun k' hk' => ⟨hbefore k' hk', hafter k' hk'⟩) hP
    refine (hstep k v s hmem hP').imp fun s' hs' => hcongr _ _ _ (fun k' hk' => ?_) hs'
    constructor
    · rintro (rfl | hlt)
      · exact ⟨v, by simp⟩
      · obtain ⟨v', hv'⟩ := hafter k' hk' hlt
        exact ⟨v', List.mem_append_left _ hv'⟩
    · rintro ⟨v', hv'⟩
      rcases List.mem_append.mp hv' with h | h
      · exact .inr (hbefore k' hk' ⟨v', h⟩)
      · exact .inl (Prod.mk.inj (List.mem_singleton.mp h)).1

section

variable (hcongr : ∀ D D' s, (∀ k, m[k]? ≠ none → (D k ↔ D' k)) → P D s → P D' s)
include hcongr

/-- **The rule for a loop over the entries from the greatest key down**: the step at a key may
assume that the greater keys are done. -/
theorem returns_foldlM_descending
    (hs : P (fun _ => False) s) (hstep : ∀ k v s, m[k]? = some v → P (fun a => k < a) s →
      Returns (f s (k, v)) (P fun a => k ≤ a) E) :
    Returns (m.toList.reverse.foldlM f s) (P fun _ => True) E := by
  refine returns_foldlM_sorted (fun a b => b < a) (fun a => lt_irrefl a)
    (fun a b => lt_asymm) (fun entry => ?_) (List.pairwise_reverse.mpr (toList_sorted m)) hcongr hs
    fun k v s hk hP => ?_
  · rw [List.mem_reverse]
    exact mem_toList_iff_getElem?_eq_some
  · refine (hstep k v s hk hP).imp fun s' hs' => hcongr _ _ _ (fun k' _ => ?_) hs'
    rw [le_iff_eq_or_lt, eq_comm]

/-- The rule for a loop over the entries from the smallest key up. -/
theorem returns_foldlM_ascending
    (hs : P (fun _ => False) s) (hstep : ∀ k v s, m[k]? = some v → P (fun a => a < k) s →
      Returns (f s (k, v)) (P fun a => a ≤ k) E) :
    Returns (m.toList.foldlM f s) (P fun _ => True) E := by
  refine returns_foldlM_sorted (fun a b => a < b) (fun a => lt_irrefl a)
    (fun a b => lt_asymm) (fun entry => mem_toList_iff_getElem?_eq_some)
    (toList_sorted m) hcongr hs fun k v s hk hP => ?_
  refine (hstep k v s hk hP).imp fun s' hs' => hcongr _ _ _ (fun k' _ => ?_) hs'
  rw [le_iff_eq_or_lt]

end

end Loops

end Panoptes.Lib
