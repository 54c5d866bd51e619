import Mathlib

/-!
# Sparse maps

A map over ordered keys in which a missing key takes its value from the latest key before it, as in
a table that only records changes.

* `below`, `latest` — the entries before a key, and the value in force at a key.
* `IsLatest` — the entry that a lookup at a key finds; `latest_eq_some_iff` says that `latest` finds
  it.
* `latest_insert_of_lt`, `latest_insert_cached`, `latest_filter_ge` — a later change, an entry that
  only repeats the value in force, and the removal of all entries before a recorded key leave a
  lookup as it was.
* `size_le_card_Icc` — a map with keys in an interval is no larger than the interval.
-/

set_option autoImplicit false

namespace Panoptes.Lib

open Std.ExtTreeMap

open Std (ExtTreeMap)

variable {α β : Type} [LinearOrder α] {m : ExtTreeMap α β} {k j : α} {v : β}

section

variable (m : ExtTreeMap α β) (k : α)

/-- The entries with a key below `k`, in ascending order. -/
def below : List (α × β) := m.toList.filter fun p => decide (p.1 < k)

/-- The value in force at `k`. -/
def latest : Option β :=
  match m[k]? with
  | some v => some v
  | none => (below m k).getLast?.map (·.2)

/-- The entry at `j` with value `v` is in force at `k`. -/
structure IsLatest (j : α) (v : β) : Prop where
  get : m[j]? = some v
  le : j ≤ k
  none_after : ∀ i, j < i → i ≤ k → m[i]? = none

end

theorem IsLatest.unique {j' : α} {v' : β} (h : IsLatest m k j v) (h' : IsLatest m k j' v') :
    v = v' := by
  rcases lt_trichotomy j j' with hlt | rfl | hlt
  · have := h.none_after j' hlt h'.le
    rw [h'.get] at this
    cases this
  · have := h.get
    rw [h'.get] at this
    cases this
    rfl
  · have := h'.none_after j hlt h.le
    rw [h.get] at this
    cases this

/-- The last of the entries before `k` is the one with the greatest key. -/
theorem below_getLast?_eq_some (h : (below m k).getLast? = some (j, v)) :
    m[j]? = some v ∧ j < k ∧ ∀ i, j < i → i < k → m[i]? = none := by
  obtain ⟨init, hinit⟩ := List.getLast?_eq_some_iff.mp h
  have hmem : (j, v) ∈ below m k := by simp [hinit]
  have hordered : (below m k).Pairwise fun a b => a.1 < b.1 := by
    refine List.Pairwise.filter _ ?_
    exact (ordered_keys_toList).imp fun hab => compare_lt_iff_lt.mp hab
  obtain ⟨hj, hlt⟩ := List.mem_filter.mp hmem
  refine ⟨mem_toList_iff_getElem?_eq_some.mp hj, by simpa using hlt, ?_⟩
  intro i hji hik
  by_contra hne
  obtain ⟨w, hw⟩ := Option.ne_none_iff_exists'.mp hne
  have hi : (i, w) ∈ init ++ [(j, v)] := by
    rw [← hinit]
    exact List.mem_filter.mpr ⟨mem_toList_iff_getElem?_eq_some.mpr hw, by simpa using hik⟩
  rw [hinit] at hordered
  rcases List.mem_append.mp hi with hi | hi
  · exact lt_asymm hji ((List.pairwise_append.mp hordered).2.2 _ hi _ (List.mem_singleton_self _))
  · rw [List.mem_singleton, Prod.mk.injEq] at hi
    exact lt_irrefl j (hi.1 ▸ hji)

theorem below_eq_nil {i : α} (h : (below m k).getLast? = none) (hik : i < k) : m[i]? = none := by
  by_contra hne
  obtain ⟨w, hw⟩ := Option.ne_none_iff_exists'.mp hne
  have hi : (i, w) ∈ below m k :=
    List.mem_filter.mpr ⟨mem_toList_iff_getElem?_eq_some.mpr hw, by simpa using hik⟩
  rw [List.getLast?_eq_none_iff.mp h] at hi
  cases hi

/-- **What a lookup finds.** -/
theorem latest_eq_some_iff : latest m k = some v ↔ ∃ j, IsLatest m k j v := by
  have hfound : ∀ v, latest m k = some v → ∃ j, IsLatest m k j v := by
    intro v h
    unfold latest at h
    split at h
    · rename_i w hw
      cases h
      exact ⟨k, hw, le_refl k, fun i hi hi' => absurd hi (not_lt.mpr hi')⟩
    · rename_i hk
      obtain ⟨⟨j, w⟩, hlast, rfl⟩ := Option.map_eq_some_iff.mp h
      obtain ⟨hget, hlt, hnone⟩ := below_getLast?_eq_some hlast
      refine ⟨j, hget, hlt.le, fun i hji hik => ?_⟩
      rcases hik.lt_or_eq with hik | rfl
      · exact hnone i hji hik
      · exact hk
  refine ⟨hfound v, fun ⟨j, hj⟩ => ?_⟩
  cases hl : latest m k with
  | some w =>
    obtain ⟨j', hj'⟩ := hfound w hl
    rw [hj.unique hj']
  | none =>
    unfold latest at hl
    split at hl
    · cases hl
    · rename_i hk
      rcases hj.le.lt_or_eq with hlt | rfl
      · have := below_eq_nil (Option.map_eq_none_iff.mp hl) hlt
        rw [hj.get] at this
        cases this
      · rw [hj.get] at hk
        cases hk

/-- Some entry is in force at every key from the first recorded one on. -/
theorem exists_latest (hj : m[j]?.isSome) (hjk : j ≤ k) : ∃ v, latest m k = some v := by
  cases h : latest m k with
  | some v => exact ⟨v, rfl⟩
  | none =>
    unfold latest at h
    split at h
    · cases h
    · rename_i hk
      rcases hjk.lt_or_eq with hlt | rfl
      · rw [below_eq_nil (Option.map_eq_none_iff.mp h) hlt] at hj
        cases hj
      · rw [hk] at hj
        cases hj

theorem latest_ext {m' : ExtTreeMap α β}
    (h : ∀ v, (∃ j, IsLatest m k j v) ↔ ∃ j, IsLatest m' k j v) : latest m k = latest m' k := by
  apply Option.ext
  intro v
  rw [latest_eq_some_iff, latest_eq_some_iff, h]

theorem latest_insert_of_lt (v : β) (h : k < j) : latest (m.insert j v) k = latest m k := by
  have hget : ∀ i, i ≤ k → (m.insert j v)[i]? = m[i]? := by
    intro i hi
    rw [getElem?_insert, if_neg]
    rw [compare_eq_iff_eq]
    rintro rfl
    exact absurd (lt_of_lt_of_le h hi) (lt_irrefl _)
  refine latest_ext fun w => exists_congr fun i => ⟨fun hi => ?_, fun hi => ?_⟩
  · refine ⟨(hget i hi.le) ▸ hi.get, hi.le, fun l hil hlk => ?_⟩
    rw [← hget l hlk]
    exact hi.none_after l hil hlk
  · refine ⟨(hget i hi.le).symm ▸ hi.get, hi.le, fun l hil hlk => ?_⟩
    rw [hget l hlk]
    exact hi.none_after l hil hlk

theorem latest_insert_cached (h : latest m j = some v) (k : α) :
    latest (m.insert j v) k = latest m k := by
  rcases lt_or_ge k j with hkj | hjk
  · exact latest_insert_of_lt v hkj
  obtain ⟨i, hi⟩ := latest_eq_some_iff.mp h
  have hget : ∀ l, l ≠ j → (m.insert j v)[l]? = m[l]? := by
    intro l hl
    rw [getElem?_insert, if_neg]
    rw [compare_eq_iff_eq]
    exact hl.symm
  have hself : (m.insert j v)[j]? = some v := by
    rw [getElem?_insert, if_pos (compare_eq_iff_eq.mpr rfl)]
  apply Option.ext
  intro w
  rw [latest_eq_some_iff, latest_eq_some_iff]
  constructor
  · rintro ⟨l, hl⟩
    by_cases hlj : l = j
    · -- the new entry is found: before, the one it repeats was
      subst hlj
      have := hl.get
      rw [hself] at this
      cases this
      refine ⟨i, hi.get, hi.le.trans hl.le, fun l' hil hlk => ?_⟩
      rcases le_or_gt l' l with hle | hgt
      · exact hi.none_after l' hil hle
      · rw [← hget l' hgt.ne']
        exact hl.none_after l' hgt hlk
    · have hjl : j ≤ l := by
        by_contra hlt
        have := hl.none_after j (not_le.mp hlt) hjk
        rw [hself] at this
        cases this
      refine ⟨l, (hget l hlj) ▸ hl.get, hl.le, fun l' hll' hl'k => ?_⟩
      rw [← hget l' (lt_of_le_of_lt hjl hll').ne']
      exact hl.none_after l' hll' hl'k
  · rintro ⟨l, hl⟩
    rcases lt_or_ge j l with hjl | hlj
    · refine ⟨l, (hget l hjl.ne').symm ▸ hl.get, hl.le, fun l' hll' hl'k => ?_⟩
      rw [hget l' (hjl.trans hll').ne']
      exact hl.none_after l' hll' hl'k
    · -- the entry found before is the one in force at the new key
      have hvw : v = w :=
        hi.unique ⟨hl.get, hlj, fun l' hll' hl'j => hl.none_after l' hll' (hl'j.trans hjk)⟩
      refine ⟨j, hvw ▸ hself, hjk, fun l' hjl' hl'k => ?_⟩
      rw [hget l' hjl'.ne']
      exact hl.none_after l' (lt_of_le_of_lt hlj hjl') hl'k

theorem latest_filter_ge {c : α} (hc : m[c]?.isSome) (hck : c ≤ k) :
    latest (m.filter fun i _ => decide (c ≤ i)) k = latest m k := by
  have hget : ∀ i, c ≤ i → (m.filter fun i _ => decide (c ≤ i))[i]? = m[i]? := by
    intro i hi
    rw [getElem?_filter']
    cases m[i]? <;> simp [hi]
  have hlow : ∀ i, ¬ c ≤ i → (m.filter fun i _ => decide (c ≤ i))[i]? = none := by
    intro i hi
    cases m[i]? <;> simp [hi]
  refine latest_ext fun w => exists_congr fun i => ⟨fun hi => ?_, fun hi => ?_⟩
  · have hci : c ≤ i := by
      by_contra hlt
      have := hi.get
      rw [hlow i hlt] at this
      cases this
    refine ⟨hget i hci ▸ hi.get, hi.le, fun l hil hlk => ?_⟩
    rw [← hget l (hci.trans hil.le)]
    exact hi.none_after l hil hlk
  · have hci : c ≤ i := by
      by_contra hlt
      rw [hi.none_after c (not_le.mp hlt) hck] at hc
      cases hc
    refine ⟨(hget i hci).symm ▸ hi.get, hi.le, fun l hil hlk => ?_⟩
    rw [hget l (hci.trans hil.le)]
    exact hi.none_after l hil hlk

/-- A map whose keys lie in an interval has at most as many entries as the interval has points. -/
theorem size_le_card_Icc [LocallyFiniteOrder α] {lo hi : α}
    (h : ∀ k, m[k]?.isSome → lo ≤ k ∧ k ≤ hi) : m.size ≤ (Finset.Icc lo hi).card := by
  have hnodup : m.keys.Nodup :=
    (distinct_keys).imp fun hne heq => hne (compare_eq_iff_eq.mpr heq)
  have hsub : m.keys.toFinset ⊆ Finset.Icc lo hi := by
    intro k hk
    rw [List.mem_toFinset, mem_keys] at hk
    exact Finset.mem_Icc.mpr (h k (isSome_getElem?_iff_mem.mpr hk))
  calc m.size = m.keys.length := length_keys.symm
    _ = m.keys.toFinset.card := (List.toFinset_card_of_nodup hnodup).symm
    _ ≤ (Finset.Icc lo hi).card := Finset.card_le_card hsub

end Panoptes.Lib
