import Mathlib

/-!
# Insertion-ordered maps

The `IndexMap` and `IndexSet` of the crate `indexmap`: a map whose entries also have positions.  A
new entry goes to the end, a known key keeps its position, and `swap_remove` moves the last entry
into the hole.

* `swapRemoveAt` — the hole filled by the last element, on lists.
* `IndexMapCrate` — the operations, with what the crate's documentation says that they do to the
  entries.
* `IndexMap` — the maps of such a crate; all that follows rests on these laws only.
* `entryLists` — lists of entries with distinct keys, which obey the laws.
* `get?_insert`, `get?_swapRemove` — what the operations do to lookups by key.
* `entries_insert_of_none`, `entries_insert_of_some`, `entries_swapRemove` — and to positions.
* `Tracks` — an index over the positions of a list, by a tag of what stands there: how it follows a
  new element, a changed one, and a removal that moves the last element.
-/

set_option autoImplicit false

namespace Panoptes.Lib

open List

variable {i : Nat} {α κ : Type} {a : α} {key : κ} {entry : κ × α}

section SwapRemove

variable {xs : List α}

/-- `xs.swap_remove(i)`: what is left. -/
def swapRemoveAt (xs : List α) (i : Nat) : List α :=
  match xs.getLast? with
  | none => []
  | some last => (xs.set i last).dropLast

theorem swapRemoveAt_concat (xs : List α) (last : α) (i : Nat) :
    swapRemoveAt (xs ++ [last]) i = ((xs ++ [last]).set i last).dropLast := by
  simp [swapRemoveAt]

theorem swapRemoveAt_eq (last : α) (hi : i ≤ xs.length) :
    swapRemoveAt (xs ++ [last]) i = if i < xs.length then xs.set i last else xs := by
  rw [swapRemoveAt_concat]
  by_cases hlt : i < xs.length
  · rw [if_pos hlt, set_append_left _ _ hlt, dropLast_concat]
  · have heq : i = xs.length := by omega
    subst heq
    rw [if_neg hlt, set_append_right _ _ le_rfl, Nat.sub_self, set_cons_zero, dropLast_concat]

theorem swapRemoveAt_perm (hi : i < xs.length) : (swapRemoveAt xs i).Perm (xs.eraseIdx i) := by
  obtain ⟨init, last, rfl⟩ := eq_nil_or_concat' xs |>.resolve_left (ne_nil_of_length_pos (by omega))
  rw [length_append, length_singleton] at hi
  rw [swapRemoveAt_eq last (by omega)]
  by_cases hlt : i < init.length
  · rw [if_pos hlt, eraseIdx_append_of_lt_length hlt]
    exact (set_perm_cons_eraseIdx hlt last).trans (perm_append_singleton _ _).symm
  · have heq : i = init.length := by omega
    subst heq
    rw [eraseIdx_append_of_length_le le_rfl]
    simp

@[simp] theorem length_swapRemoveAt (hi : i < xs.length) :
    (swapRemoveAt xs i).length = xs.length - 1 := by
  rw [(swapRemoveAt_perm hi).length_eq, length_eraseIdx_of_lt hi]

theorem getElem?_swapRemoveAt (hi : i < xs.length) (j : Nat) :
    (swapRemoveAt xs i)[j]?
      = if j < xs.length - 1 then (if j = i then xs[xs.length - 1]? else xs[j]?) else none := by
  by_cases hj : j < xs.length - 1
  · rw [if_pos hj]
    obtain ⟨init, last, rfl⟩ :=
      eq_nil_or_concat' xs |>.resolve_left (ne_nil_of_length_pos (by omega))
    rw [length_append, length_singleton] at hi hj
    rw [swapRemoveAt_eq last (by omega), length_append]
    by_cases hji : j = i
    · subst hji
      rw [if_pos (by omega), getElem?_set_self (by omega)]
      simp
    · rw [if_neg hji, getElem?_append_left (by omega)]
      split
      · exact getElem?_set_ne (Ne.symm hji)
      · rfl
  · rw [if_neg hj, getElem?_eq_none]
    rw [length_swapRemoveAt hi]
    omega

end SwapRemove

/-- The crate, by what its documentation says of the entries and their positions. -/
structure IndexMapCrate where
  Map : Type → Type → Type
  /-- The entries, in the order of their positions. -/
  entries {κ α : Type} : Map κ α → List (κ × α)
  nodup {κ α : Type} (m : Map κ α) : ((entries m).map Prod.fst).Nodup
  new {κ α : Type} : Map κ α
  entries_new {κ α : Type} : entries (new : Map κ α) = []
  /-- `get_full`: the position and the value of a key. -/
  getFull {κ α : Type} [DecidableEq κ] : Map κ α → κ → Option (Nat × α)
  getFull_eq_some {κ α : Type} [DecidableEq κ] (m : Map κ α) (key : κ) (i : Nat) (a : α) :
    getFull m key = some (i, a) ↔ (entries m)[i]? = some (key, a)
  /-- `insert`: a known key keeps its position, a new one goes to the end. -/
  insert {κ α : Type} [DecidableEq κ] : Map κ α → κ → α → Map κ α
  insert_known {κ α : Type} [DecidableEq κ] (m : Map κ α) (key : κ) (i : Nat) (a b : α) :
    (entries m)[i]? = some (key, b) → entries (insert m key a) = (entries m).set i (key, a)
  insert_new {κ α : Type} [DecidableEq κ] (m : Map κ α) (key : κ) (a : α) :
    key ∉ (entries m).map Prod.fst → entries (insert m key a) = entries m ++ [(key, a)]
  /-- `swap_remove`: the last entry moves into the hole. -/
  swapRemove {κ α : Type} [DecidableEq κ] : Map κ α → κ → Map κ α
  swapRemove_known {κ α : Type} [DecidableEq κ] (m : Map κ α) (key : κ) (i : Nat) (b : α) :
    (entries m)[i]? = some (key, b) → entries (swapRemove m key) = swapRemoveAt (entries m) i
  swapRemove_unknown {κ α : Type} [DecidableEq κ] (m : Map κ α) (key : κ) :
    key ∉ (entries m).map Prod.fst → entries (swapRemove m key) = entries m
  /-- `index_mut`: the value at a position is changed in place. -/
  modifyAt {κ α : Type} : Map κ α → Nat → (α → α) → Map κ α
  entries_modifyAt {κ α : Type} (m : Map κ α) (i : Nat) (f : α → α) :
    entries (modifyAt m i f) = (entries m).modify i fun entry => (entry.1, f entry.2)

def IndexMap (C : IndexMapCrate) (κ α : Type) : Type := C.Map κ α

variable {C : IndexMapCrate}

namespace IndexMap

variable {m : IndexMap C κ α}

def empty : IndexMap C κ α := C.new

section

variable (m : IndexMap C κ α)

def entries : List (κ × α) := C.entries m

def len : Nat := m.entries.length

def keys : List κ := m.entries.map Prod.fst

def values : List α := m.entries.map Prod.snd

def valueAt (i : Nat) : Option α := m.entries[i]?.map Prod.snd

def modifyAt (i : Nat) (f : α → α) : IndexMap C κ α := C.modifyAt m i f

theorem nodup : m.keys.Nodup := C.nodup m

end

@[simp] theorem entries_empty : (empty : IndexMap C κ α).entries = [] := C.entries_new

theorem valueAt_empty (i : Nat) : (empty : IndexMap C κ α).valueAt i = none := by
  simp [valueAt]

theorem eq_of_mem {b : α} (ha : (key, a) ∈ m.entries) (hb : (key, b) ∈ m.entries) : a = b :=
  congrArg Prod.snd (inj_on_of_nodup_map m.nodup ha hb rfl)

variable [DecidableEq κ]

section

variable (m : IndexMap C κ α) (key : κ)

def getFull : Option (Nat × α) := C.getFull m key

def insert (a : α) : IndexMap C κ α := C.insert m key a

def swapRemove : IndexMap C κ α := C.swapRemove m key

def getIndexOf : Option Nat := (m.getFull key).map Prod.fst

def get? : Option α := (m.entries.find? fun entry => entry.1 = key).map Prod.snd

end

theorem get?_eq_some : m.get? key = some a ↔ (key, a) ∈ m.entries := by
  unfold get?
  constructor
  · intro h
    obtain ⟨entry, hfind, rfl⟩ := Option.map_eq_some_iff.mp h
    have hkey : entry.1 = key := by simpa using find?_some hfind
    subst hkey
    exact mem_of_find?_eq_some hfind
  · intro h
    have hsome : (m.entries.find? fun entry => entry.1 = key).isSome := by
      rw [find?_isSome]
      exact ⟨(key, a), h, by simp⟩
    obtain ⟨entry, hfind⟩ := Option.isSome_iff_exists.mp hsome
    have hkey : entry.1 = key := by simpa using find?_some hfind
    subst hkey
    rw [hfind, Option.map_some, eq_of_mem (mem_of_find?_eq_some hfind) h]

theorem getFull_eq_some : m.getFull key = some (i, a) ↔ m.entries[i]? = some (key, a) :=
  C.getFull_eq_some m key i a

theorem getFull_eq_none :
    m.getFull key = none ↔ m.getIndexOf key = none := Option.map_eq_none_iff.symm

theorem getIndexOf_eq_some : m.getIndexOf key = some i ↔ ∃ a, m.entries[i]? = some (key, a) := by
  unfold getIndexOf
  rw [Option.map_eq_some_iff]
  constructor
  · rintro ⟨⟨_, a⟩, hfull, rfl⟩
    exact ⟨a, getFull_eq_some.mp hfull⟩
  · rintro ⟨a, ha⟩
    exact ⟨(i, a), getFull_eq_some.mpr ha, rfl⟩

theorem getIndexOf_eq_none : m.getIndexOf key = none ↔ key ∉ m.keys := by
  rw [Option.eq_none_iff_forall_ne_some]
  constructor
  · intro h hmem
    obtain ⟨⟨_, a⟩, hentry, rfl⟩ := mem_map.mp hmem
    obtain ⟨i, hi⟩ := mem_iff_getElem?.mp hentry
    exact h i (getIndexOf_eq_some.mpr ⟨a, hi⟩)
  · intro h i hi
    obtain ⟨a, ha⟩ := getIndexOf_eq_some.mp hi
    exact h (mem_map_of_mem (mem_of_getElem? ha))

theorem lt_of_getIndexOf (h : m.getIndexOf key = some i) : i < m.entries.length := by
  obtain ⟨a, h⟩ := getIndexOf_eq_some.mp h
  exact (List.getElem?_eq_some_iff.mp h).1

theorem mem_eraseIdx (h : m.getIndexOf key = some i) :
    entry ∈ m.entries.eraseIdx i ↔ entry ∈ m.entries ∧ entry.1 ≠ key := by
  obtain ⟨a, h⟩ := getIndexOf_eq_some.mp h
  obtain ⟨hi, hentry⟩ := List.getElem?_eq_some_iff.mp h
  have hperm := getElem_cons_eraseIdx_perm hi
  rw [hentry] at hperm
  have hnodup := (hperm.map Prod.fst).nodup_iff.mpr m.nodup
  rw [map_cons, nodup_cons] at hnodup
  have hmem : entry ∈ m.entries ↔ entry = (key, a) ∨ entry ∈ m.entries.eraseIdx i := by
    rw [← hperm.mem_iff, mem_cons]
  constructor
  · intro hrest
    refine ⟨hmem.mpr (.inr hrest), fun hkey => hnodup.1 ?_⟩
    exact mem_map.mpr ⟨entry, hrest, hkey⟩
  · rintro ⟨hentries, hne⟩
    rcases hmem.mp hentries with rfl | hrest
    · exact absurd rfl hne
    · exact hrest

/-! ## Insertion -/

theorem entries_insert_of_some (h : m.getIndexOf key = some i) (a : α) :
    (m.insert key a).entries = m.entries.set i (key, a) := by
  obtain ⟨b, hb⟩ := getIndexOf_eq_some.mp h
  exact C.insert_known m key i a b hb

theorem entries_insert_of_none (h : m.getIndexOf key = none) (a : α) :
    (m.insert key a).entries = m.entries ++ [(key, a)] :=
  C.insert_new m key a (getIndexOf_eq_none.mp h)

theorem mem_entries_insert :
    entry ∈ (m.insert key a).entries ↔ entry = (key, a) ∨ entry ∈ m.entries ∧ entry.1 ≠ key := by
  cases h : m.getIndexOf key with
  | some i =>
    rw [entries_insert_of_some h, (set_perm_cons_eraseIdx (lt_of_getIndexOf h) _).mem_iff, mem_cons,
      mem_eraseIdx h]
  | none =>
    rw [entries_insert_of_none h, mem_append, mem_singleton, or_comm]
    refine or_congr_right ⟨fun hmem => ⟨hmem, ?_⟩, And.left⟩
    rintro rfl
    exact getIndexOf_eq_none.mp h (mem_map_of_mem hmem)

theorem get?_insert (m : IndexMap C κ α) (key : κ) (a : α) (key' : κ) :
    (m.insert key a).get? key' = if key' = key then some a else m.get? key' := by
  ext b
  rw [get?_eq_some, mem_entries_insert]
  split
  · rename_i heq
    simp [heq, eq_comm]
  · rename_i hne
    simp [hne, get?_eq_some]

/-! ## Removal -/

theorem entries_swapRemove (h : m.getIndexOf key = some i) :
    (m.swapRemove key).entries = swapRemoveAt m.entries i := by
  obtain ⟨b, hb⟩ := getIndexOf_eq_some.mp h
  exact C.swapRemove_known m key i b hb

theorem entries_swapRemove_of_none (h : m.getIndexOf key = none) :
    (m.swapRemove key).entries = m.entries :=
  C.swapRemove_unknown m key (getIndexOf_eq_none.mp h)

theorem mem_entries_swapRemove :
    entry ∈ (m.swapRemove key).entries ↔ entry ∈ m.entries ∧ entry.1 ≠ key := by
  cases h : m.getIndexOf key with
  | some i =>
    rw [entries_swapRemove h, (swapRemoveAt_perm (lt_of_getIndexOf h)).mem_iff, mem_eraseIdx h]
  | none =>
    rw [entries_swapRemove_of_none h]
    refine ⟨fun hmem => ⟨hmem, ?_⟩, And.left⟩
    rintro rfl
    exact getIndexOf_eq_none.mp h (mem_map_of_mem hmem)

theorem get?_swapRemove (m : IndexMap C κ α) (key key' : κ) :
    (m.swapRemove key).get? key' = if key' = key then none else m.get? key' := by
  ext b
  rw [get?_eq_some, mem_entries_swapRemove]
  split
  · rename_i heq
    simp [heq]
  · rename_i hne
    simp [hne, get?_eq_some]

/-! ## Positions -/

section

omit [DecidableEq κ]

theorem entries_modifyAt (m : IndexMap C κ α) (i : Nat) (f : α → α) :
    (m.modifyAt i f).entries = m.entries.modify i fun entry => (entry.1, f entry.2) :=
      C.entries_modifyAt m i f

theorem valueAt_modifyAt (m : IndexMap C κ α) (i : Nat) (f : α → α) (j : Nat) :
    (m.modifyAt i f).valueAt j = if j = i then (m.valueAt j).map f else m.valueAt j := by
  unfold valueAt
  rw [entries_modifyAt, getElem?_modify]
  cases m.entries[j]? with
  | none => simp
  | some entry => by_cases hij : i = j <;> simp [hij, eq_comm]

theorem lt_len_of_valueAt (h : m.valueAt i = some a) : i < m.len := by
  obtain ⟨entry, hentry, -⟩ := Option.map_eq_some_iff.mp h
  exact (List.getElem?_eq_some_iff.mp hentry).1

theorem exists_valueAt (h : i < m.len) : ∃ a, m.valueAt i = some a := by
  refine ⟨m.entries[i].2, ?_⟩
  unfold valueAt
  rw [getElem?_eq_getElem h]
  rfl

end

theorem valueAt_insert_of_none (h : m.getIndexOf key = none) (a : α) (j : Nat) :
    (m.insert key a).valueAt j = if j = m.len then some a else m.valueAt j := by
  unfold valueAt len
  rw [entries_insert_of_none h, getElem?_append]
  by_cases hlt : j < m.entries.length
  · rw [if_pos hlt, if_neg (Nat.ne_of_lt hlt)]
  · rw [if_neg hlt]
    by_cases heq : j = m.entries.length
    · rw [if_pos heq, heq, Nat.sub_self]
      rfl
    · rw [if_neg heq, getElem?_eq_none (by rw [length_singleton]; omega),
        getElem?_eq_none (by omega)]

section

variable (h : m.getIndexOf key = some i)
include h

theorem valueAt_insert_of_some (a : α) (j : Nat) :
    (m.insert key a).valueAt j = if j = i then some a else m.valueAt j := by
  unfold valueAt
  rw [entries_insert_of_some h]
  by_cases hji : j = i
  · rw [if_pos hji, hji, getElem?_set_self (lt_of_getIndexOf h)]
    rfl
  · rw [if_neg hji, getElem?_set_ne (Ne.symm hji)]

theorem len_swapRemove : (m.swapRemove key).len = m.len - 1 := by
  unfold len
  rw [entries_swapRemove h, length_swapRemoveAt (lt_of_getIndexOf h)]

theorem valueAt_swapRemove (j : Nat) :
    (m.swapRemove key).valueAt j
      = if j = m.len - 1 then none else if j = i then m.valueAt (m.len - 1) else m.valueAt j := by
  have hi := lt_of_getIndexOf h
  unfold valueAt
  rw [entries_swapRemove h, getElem?_swapRemoveAt hi]
  unfold len
  by_cases hlt : j < m.entries.length - 1
  · rw [if_pos hlt, if_neg (Nat.ne_of_lt hlt)]
    split <;> rfl
  · rw [if_neg hlt]
    by_cases hlast : j = m.entries.length - 1
    · rw [if_pos hlast]
      rfl
    · rw [if_neg hlast, if_neg (by omega), getElem?_eq_none (by omega)]

end

omit [DecidableEq κ] in
theorem mem_entries_modifyAt {f : α → α} (h : entry ∈ (m.modifyAt i f).entries) :
    ∃ a, (entry.1, a) ∈ m.entries ∧ (entry.2 = a ∨ entry.2 = f a) := by
  obtain ⟨j, hj⟩ := mem_iff_getElem?.mp h
  rw [entries_modifyAt, getElem?_modify] at hj
  obtain ⟨old, hold, rfl⟩ := Option.map_eq_some_iff.mp hj
  refine ⟨old.2, ?_, ?_⟩
  · split <;> exact mem_of_getElem? hold
  · split
    · exact .inr rfl
    · exact .inl rfl

end IndexMap

/-! ## Indices over positions -/

section Tracks

variable {at₁ at₂ : Nat → Option α} {tag : α → κ → Prop} {has₁ has₂ : κ → Nat → Prop}

/-- `has` holds of a tag and a position exactly if what stands there has the tag. -/
def Tracks (at' : Nat → Option α) (tag : α → κ → Prop) (has : κ → Nat → Prop) : Prop :=
  ∀ k i, has k i ↔ ∃ a, at' i = some a ∧ tag a k

theorem Tracks.empty (hat : ∀ i, at₁ i = none) (hhas : ∀ k i, ¬ has₁ k i) :
    Tracks at₁ tag has₁ := by
  intro k i
  simp [hat, hhas]

section

variable (h : Tracks at₁ tag has₁)
include h

theorem Tracks.update (hat : ∀ j, at₂ j = if j = i then some a else at₁ j)
    (hhas : ∀ k j, has₂ k j ↔ if j = i then tag a k else has₁ k j) : Tracks at₂ tag has₂ := by
  intro k j
  rw [hhas, hat]
  split
  · simp
  · exact h k j

theorem Tracks.erase (hat : ∀ j, at₂ j = if j = i then none else at₁ j)
    (hhas : ∀ k j, has₂ k j ↔ j ≠ i ∧ has₁ k j) : Tracks at₂ tag has₂ := by
  intro k j
  rw [hhas, hat]
  split
  · rename_i hj
    simp [hj]
  · rename_i hj
    rw [h k j]
    simp [hj]

/-- A removal: the last position goes to the hole, if the hole is not the last position itself. -/
theorem Tracks.swapRemove {last : Nat}
    (hat : ∀ j, at₂ j = if j = last then none else if j = i then some a else at₁ j)
    (hhas : ∀ k j, has₂ k j ↔ if j = last then False else if j = i then tag a k else has₁ k j) :
    Tracks at₂ tag has₂ := by
  intro k j
  rw [hhas, hat]
  split
  · simp
  · split
    · simp
    · exact h k j

end

/-- The tags see only a part of what stands at a position, and that part stays. -/
theorem Tracks.congr {γ : Type} {has : κ → Nat → Prop} (h : Tracks at₁ tag has) (part : α → γ)
    (hat : ∀ j, (at₂ j).map part = (at₁ j).map part)
    (htag : ∀ a b k, part a = part b → (tag a k ↔ tag b k)) : Tracks at₂ tag has := by
  intro k j
  rw [h k j]
  have hj := hat j
  cases h₁ : at₁ j with
  | none =>
    rw [h₁, Option.map_none, Option.map_eq_none_iff] at hj
    rw [hj]
  | some b =>
    rw [h₁] at hj
    obtain ⟨a, ha, hpart⟩ := Option.map_eq_some_iff.mp hj
    rw [ha]
    simp [htag a b k hpart]

end Tracks

abbrev IndexSet (C : IndexMapCrate) (κ : Type) := IndexMap C κ Unit

namespace IndexSet

variable [DecidableEq κ] {s : IndexSet C κ}

/-- `insert`; a known element stays where it is. -/
def add (s : IndexSet C κ) (key : κ) : IndexSet C κ := IndexMap.insert s key ()

def remove (s : IndexSet C κ) (key : κ) : IndexSet C κ := IndexMap.swapRemove s key

omit [DecidableEq κ] in
theorem mem_keys : key ∈ s.keys ↔ (key, ()) ∈ s.entries := by
  simp only [IndexMap.keys, mem_map, Prod.exists, exists_and_right, exists_eq_right]
  exact ⟨fun ⟨_, h⟩ => h, fun h => ⟨(), h⟩⟩

variable {key' : κ}

theorem mem_add : key' ∈ (add s key).keys ↔ key' = key ∨ key' ∈ s.keys := by
  rw [mem_keys, mem_keys, add, IndexMap.mem_entries_insert]
  by_cases h : key' = key <;> simp [h]

theorem mem_remove : key' ∈ (remove s key).keys ↔ key' ≠ key ∧ key' ∈ s.keys := by
  rw [mem_keys, mem_keys, remove, IndexMap.mem_entries_swapRemove, and_comm]

end IndexSet

/-! ## Lists of entries -/

section EntryLists

variable {xs : List (κ × α)}

theorem nodup_modify (hnodup : (xs.map Prod.fst).Nodup) (i : Nat) (f : α → α) :
    ((xs.modify i fun entry => (entry.1, f entry.2)).map Prod.fst).Nodup := by
  have hkeys : (xs.modify i fun entry => (entry.1, f entry.2)).map Prod.fst = xs.map Prod.fst := by
    refine ext_getElem? fun j => ?_
    rw [getElem?_map, getElem?_map, getElem?_modify]
    cases xs[j]? with
    | none => rfl
    | some entry => by_cases hij : i = j <;> simp [hij]
  rw [hkeys]
  exact hnodup

variable [DecidableEq κ]

section

variable (xs : List (κ × α)) (key : κ)

def entryPosition : Option Nat := xs.findIdx? fun entry => entry.1 = key

def insertEntry (a : α) : List (κ × α) :=
  match entryPosition xs key with
  | some i => xs.set i (key, a)
  | none => xs ++ [(key, a)]

def removeEntry : List (κ × α) :=
  match entryPosition xs key with
  | some i => swapRemoveAt xs i
  | none => xs

end

theorem entryPosition_eq_none : entryPosition xs key = none ↔ key ∉ xs.map Prod.fst := by
  unfold entryPosition
  rw [findIdx?_eq_none_iff]
  simp only [decide_eq_false_iff_not, mem_map, not_exists, not_and]

section

variable (hnodup : (xs.map Prod.fst).Nodup)
include hnodup

theorem entryPosition_eq_some : entryPosition xs key = some i ↔ ∃ a, xs[i]? = some (key, a) := by
  constructor
  · intro h
    obtain ⟨hi, hkey, -⟩ := findIdx?_eq_some_iff_getElem.mp h
    refine ⟨xs[i].2, ?_⟩
    rw [getElem?_eq_getElem hi]
    have hkey : xs[i].1 = key := by simpa using hkey
    subst hkey
    rfl
  · rintro ⟨a, h⟩
    obtain ⟨hi, hentry⟩ := List.getElem?_eq_some_iff.mp h
    refine findIdx?_eq_some_iff_getElem.mpr ⟨hi, by simp [hentry], fun j hj hkey => ?_⟩
    -- an earlier entry of the same key would be a second one
    have hjkey : (xs.map Prod.fst)[j]? = some key := by
      rw [getElem?_map, getElem?_eq_getElem (by omega)]
      simpa using hkey
    have hikey : (xs.map Prod.fst)[i]? = some key := by rw [getElem?_map, h]; rfl
    have heq := (getElem?_inj (by rw [length_map]; omega) hnodup).mp (hjkey.trans hikey.symm)
    omega

theorem nodup_insertEntry (a : α) : ((insertEntry xs key a).map Prod.fst).Nodup := by
  unfold insertEntry
  split
  · rename_i i hi
    obtain ⟨b, hb⟩ := (entryPosition_eq_some hnodup).mp hi
    obtain ⟨hlt, hentry⟩ := List.getElem?_eq_some_iff.mp hb
    have hkey : (xs.map Prod.fst).set i key = xs.map Prod.fst := by
      have hself := set_getElem_self (show i < (xs.map Prod.fst).length by rwa [length_map])
      rwa [getElem_map, hentry] at hself
    rw [map_set, hkey]
    exact hnodup
  · rename_i hnone
    rw [map_append, map_singleton, nodup_append_comm, singleton_append, nodup_cons]
    exact ⟨entryPosition_eq_none.mp hnone, hnodup⟩

theorem nodup_removeEntry : ((removeEntry xs key).map Prod.fst).Nodup := by
  unfold removeEntry
  split
  · rename_i i hi
    obtain ⟨b, hb⟩ := (entryPosition_eq_some hnodup).mp hi
    rw [((swapRemoveAt_perm (List.getElem?_eq_some_iff.mp hb).1).map Prod.fst).nodup_iff]
    exact hnodup.sublist ((eraseIdx_sublist ..).map _)
  · exact hnodup

end

/-- The crate as lists of entries. -/
def entryLists : IndexMapCrate where
  Map κ α := { xs : List (κ × α) // (xs.map Prod.fst).Nodup }
  entries m := m.1
  nodup m := m.2
  new := ⟨[], nodup_nil⟩
  entries_new := rfl
  getFull m key := do
    let i ← entryPosition m.1 key
    let entry ← m.1[i]?
    some (i, entry.2)
  getFull_eq_some m key i a := by
    simp only [Option.bind_eq_bind, Option.bind_eq_some_iff, Option.some.injEq, Prod.mk.injEq]
    constructor
    · rintro ⟨j, hj, entry, hentry, rfl, rfl⟩
      obtain ⟨b, hb⟩ := (entryPosition_eq_some m.2).mp hj
      cases hentry.symm.trans hb
      exact hb
    · intro h
      exact ⟨i, (entryPosition_eq_some m.2).mpr ⟨a, h⟩, (key, a), h, rfl, rfl⟩
  insert m key a := ⟨insertEntry m.1 key a, nodup_insertEntry m.2 a⟩
  insert_known m key i a b h := by
    change insertEntry m.1 key a = _
    unfold insertEntry
    rw [(entryPosition_eq_some m.2).mpr ⟨b, h⟩]
  insert_new m key a h := by
    change insertEntry m.1 key a = _
    unfold insertEntry
    rw [entryPosition_eq_none.mpr h]
  swapRemove m key := ⟨removeEntry m.1 key, nodup_removeEntry m.2⟩
  swapRemove_known m key i b h := by
    change removeEntry m.1 key = _
    unfold removeEntry
    rw [(entryPosition_eq_some m.2).mpr ⟨b, h⟩]
  swapRemove_unknown m key h := by
    change removeEntry m.1 key = _
    unfold removeEntry
    rw [entryPosition_eq_none.mpr h]
  modifyAt m i f := ⟨m.1.modify i fun entry => (entry.1, f entry.2), nodup_modify m.2 i f⟩
  entries_modifyAt _ _ _ := rfl

end EntryLists

end Panoptes.Lib
