import Panoptes.Lib.Columns
import Panoptes.Ledger.Shredder

/-!
# The metadata of a slot

`ledger/src/blockstore_meta.rs` and the functions of `ledger/src/blockstore.rs` that update a slot's
metadata when a data shred is inserted.

* `SlotMeta`, `Index`, `ErasureMeta` — what the blockstore keeps of a slot beside its shreds.
* `updateCompletedDataIndexes`, `updateSlotMeta`, `insertDataShred` — one data shred.
* `Book` — the abstract content: the metadata and the index are functions of the list of shreds
  inserted so far.

Principal result: `insertDataShred_returns`: a shred that passed the checks is inserted without an
abort and keeps `Book`.
-/

set_option autoImplicit false

namespace Panoptes.Ledger

open Std.ExtTreeSet

open Lib Sdk List
open Std (ExtTreeMap ExtTreeSet)

def U32 : Nat := 2 ^ 32

def DEFAULT_TICKS_PER_SECOND : Nat := 160

/-- `std::u64::MAX` stands for an unknown last index and for an unknown parent. -/
structure SlotMeta where
  slot : Nat
  consumed : Nat
  received : Nat
  firstShredTimestamp : Nat
  lastIndex : Nat
  parentSlot : Nat
  nextSlots : List Nat
  isConnected : Bool
  completedDataIndexes : List Nat
  deriving DecidableEq, Repr

/-- The data and coding shreds that are present; `coding` and `data` are `ShredIndex`es. -/
structure Index where
  slot : Nat
  data : ExtTreeSet Nat
  coding : ExtTreeSet Nat

def Index.new (slot : Nat) : Index := { slot, data := ∅, coding := ∅ }

def setPresent (shredIndex : ExtTreeSet Nat) (index : Nat) (presence : Bool) : ExtTreeSet Nat :=
  if presence then shredIndex.insert index else shredIndex.erase index

/-- `shred_index.present_in_bounds(start..end)`. -/
def presentInBounds (shredIndex : ExtTreeSet Nat) (start stop : Nat) : Nat :=
  (shredIndex.toList.filter fun i => start ≤ i ∧ i < stop).length

namespace SlotMeta

def new (slot parentSlot : Nat) : SlotMeta :=
  { slot
    consumed := 0
    received := 0
    firstShredTimestamp := 0
    parentSlot
    nextSlots := []
    isConnected := slot == 0
    lastIndex := U64_MAX
    completedDataIndexes := [] }

def newOrphan (slot : Nat) : SlotMeta := new slot U64_MAX

def isFull (m : SlotMeta) : Bool := m.lastIndex != U64_MAX && m.consumed == m.lastIndex + 1

def isParentSet (m : SlotMeta) : Bool := m.parentSlot != U64_MAX

def isOrphan (m : SlotMeta) : Bool := !m.isParentSet

end SlotMeta

structure ErasureConfig where
  numData : Nat
  numCoding : Nat
  deriving DecidableEq, Repr

structure ErasureMeta where
  setIndex : Nat
  firstCodingIndex : Nat
  config : ErasureConfig
  deriving DecidableEq, Repr

inductive ErasureMetaStatus where
  | canRecover
  | dataFull
  | stillNeed (needed : Nat)
  deriving DecidableEq, Repr

def ErasureMeta.status (m : ErasureMeta) (index : Index) : ErasureMetaStatus :=
  let numCoding :=
    presentInBounds index.coding m.firstCodingIndex (m.firstCodingIndex + m.config.numCoding)
  let numData := presentInBounds index.data m.setIndex (m.setIndex + m.config.numData)
  let dataMissing := m.config.numData - numData
  let numNeeded := m.config.numData - (numData + numCoding)
  if dataMissing = 0 then .dataFull else if numNeeded = 0 then .canRecover else .stillNeed numNeeded

/-! ## Updates for one data shred -/

/-- The scan of `update_completed_data_indexes` for the first index above the new one: its position,
and the completed index before it. -/
def scanCompleted (newShredIndex : Nat) : List Nat → Nat → Option Nat →
    Except Panic (Option Nat × Option Nat)
  | [], _, prev => .ok (none, prev)
  | completed :: rest, i, prev => do
    assert (∀ p ∈ prev, p < completed)
    if newShredIndex < completed then return (some i, prev)
    else scanCompleted newShredIndex rest (i + 1) (some completed)

/-- The ranges between consecutive entries of `check_ranges` of which no shred is missing. -/
def completedRanges (receivedDataShreds : ExtTreeSet Nat) (checkRanges : List Nat) :
    List (Nat × Nat) :=
  (checkRanges.zip checkRanges.tail).filterMap fun (start, stop) =>
    if (List.range' start (stop - start)).all (receivedDataShreds.contains ·) then
      some (start, (stop + (U32 - 1)) % U32)
    else none

/-- `update_completed_data_indexes(..)`: the completed indexes after the call, and the ranges it
returns. -/
def updateCompletedDataIndexes (isLastInData : Bool) (newShredIndex : Nat)
    (receivedDataShreds : ExtTreeSet Nat)
    (completedDataIndexes : List Nat) : Except Panic (List Nat × List (Nat × Nat)) := do
  let (firstGreaterPos, prevCompletedShredIndex) ← scanCompleted newShredIndex
    completedDataIndexes 0 none
  let checkRanges := [(prevCompletedShredIndex.map fun i => (i + 1) % U32).getD 0]
  let firstGreater ← match firstGreaterPos with
    | some i => (index completedDataIndexes i).map some
    | none => .ok none
  let (checkRanges, completedDataIndexes, firstGreater) :=
    if isLastInData then
      match firstGreaterPos with
      | some pos =>
        (checkRanges ++ [(newShredIndex + 1) % U32],
          completedDataIndexes.insertIdx pos newShredIndex, firstGreater)
      | none => (checkRanges, completedDataIndexes ++ [newShredIndex], some newShredIndex)
    else (checkRanges, completedDataIndexes, firstGreater)
  match firstGreater with
  | none => return (completedDataIndexes, [])
  | some last =>
    return (completedDataIndexes,
      completedRanges receivedDataShreds (checkRanges ++ [(last + 1) % U32]))

/-- `update_slot_meta(..)`; `now` is the clock's reading. -/
def updateSlotMeta (isLastInSlot isLastInData : Bool) (m : SlotMeta)
    (index newConsumed referenceTick : Nat)
    (receivedDataShreds : ExtTreeSet Nat) (now : Nat) :
    Except Panic (SlotMeta × List (Nat × Nat)) := do
  let received := max (index + 1) m.received
  let firstShredTimestamp :=
    if m.received = 0 ∧ 0 < received then
      wrapSub now (referenceTick * 1000 / DEFAULT_TICKS_PER_SECOND)
    else m.firstShredTimestamp
  let lastIndex := if m.lastIndex = U64_MAX then if isLastInSlot then index else U64_MAX
    else m.lastIndex
  let r ← updateCompletedDataIndexes (isLastInSlot || isLastInData) index receivedDataShreds
    m.completedDataIndexes
  return ({ m with
    received, firstShredTimestamp, consumed := newConsumed, lastIndex,
      completedDataIndexes := r.1 }, r.2)

/-- `while data_index.is_present(current_index) { current_index += 1 }`. -/
def nextMissing (dataIndex : ExtTreeSet Nat) : Nat → Nat → Except Panic Nat
  | 0, _ => .error .fuel
  | fuel + 1, i => if dataIndex.contains i then nextMissing dataIndex fuel (i + 1) else .ok i

/-- The number of consecutive shreds from 0 once the shred at `index` is present. -/
def newConsumed (m : SlotMeta) (dataIndex : ExtTreeSet Nat) (index : Nat) : Except Panic Nat :=
  if m.consumed = index then nextMissing dataIndex (dataIndex.size + 1) (index + 1)
    else .ok m.consumed

/-- What `insert_data_shred` changes. -/
structure DataInserted where
  slotMeta : SlotMeta
  dataIndex : ExtTreeSet Nat
  newlyCompletedDataSets : List (Nat × Nat)

/-- `insert_data_shred(slot_meta, data_index, shred, write_batch)`, the write apart. -/
def insertDataShred (m : SlotMeta) (dataIndex : ExtTreeSet Nat) (shred : Shred) (now : Nat) :
    Except Panic DataInserted := do
  assert (m.isOrphan = false)
  let newConsumed ← newConsumed m dataIndex shred.index
  let dataIndex := setPresent dataIndex shred.index true
  let r ←
    updateSlotMeta shred.lastInSlot shred.dataComplete m shred.index newConsumed
      shred.referenceTick dataIndex now
  return { slotMeta := r.1, dataIndex, newlyCompletedDataSets := r.2 }

def isDataShredPresent (shred : Shred) (m : SlotMeta) (dataIndex : ExtTreeSet Nat) : Bool :=
  decide (shred.index < m.consumed) || dataIndex.contains shred.index

/-! ## The loops -/

variable {t : ExtTreeSet Nat} {index i start : Nat}

theorem mem_setPresent_true : i ∈ setPresent t index true ↔ i = index ∨ i ∈ t := mem_insert_set

theorem mem_setPresent_false : i ∈ setPresent t index false ↔ i ≠ index ∧ i ∈ t := by
  unfold setPresent
  rw [if_neg Bool.false_ne_true, mem_erase, ne_eq, Std.LawfulEqOrd.compare_eq_iff_eq, eq_comm]

/-- Indices that are all present are at most as many as the present ones. -/
theorem length_le_size {n : Nat} (h : ∀ i, start ≤ i → i < start + n → i ∈ t) : n ≤ t.size := by
  have hsub : List.range' start n ⊆ t.toList := by
    intro i hi
    rw [mem_range'_1] at hi
    exact mem_toList.mpr (h i hi.1 hi.2)
  have hle := (subperm_of_subset nodup_range' hsub).length_le
  rwa [length_range', length_toList] at hle

/-- The loop ends at the first index that is not present. -/
theorem nextMissing_returns (fuel i : Nat) (hstart : start ≤ i)
    (hfuel : t.size < fuel + (i - start)) (hpresent : ∀ j, start ≤ j → j < i → j ∈ t) :
    Returns (nextMissing t fuel i) (fun k => (∀ j, start ≤ j → j < k → j ∈ t) ∧ k ∉ t ∧ i ≤ k)
      fun _ => False := by
  induction fuel generalizing i with
  | zero =>
    have hall : ∀ j, start ≤ j → j < start + (i - start) → j ∈ t :=
      fun j hj hlt => hpresent j hj (by omega)
    have hle := length_le_size hall
    omega
  | succ fuel ih =>
    unfold nextMissing
    by_cases hi : i ∈ t
    · rw [if_pos (contains_iff_mem.mpr hi)]
      refine (ih (i + 1) (by omega) (by omega) fun j hj hlt => ?_).imp fun k hk =>
        ⟨hk.1, hk.2.1, by omega⟩
      rcases Nat.lt_succ_iff_lt_or_eq.mp hlt with hlt | rfl
      · exact hpresent j hj hlt
      · exact hi
    · rw [if_neg fun h => hi (contains_iff_mem.mp h)]
      exact ⟨hpresent, hi, Nat.le_refl i⟩

/-- The scan finds where the new index belongs. -/
theorem scanCompleted_returns (new : Nat) (l : List Nat) (i : Nat) (prev : Option Nat)
    (hsorted : (prev.toList ++ l).Pairwise (· < ·)) :
    Returns (scanCompleted new l i prev)
      (fun r => ∃ low high, l = low ++ high ∧ (∀ c ∈ low, c ≤ new) ∧ (∀ c ∈ high, new < c) ∧
        r.1 = if high = [] then none else some (i + low.length)) fun _ => False := by
  induction l generalizing i prev with
  | nil => exact ⟨[], [], rfl, by simp, by simp, rfl⟩
  | cons c l ih =>
    have hprev : ∀ p ∈ prev, p < c := by
      intro p hp
      cases hp
      exact (pairwise_cons.mp hsorted).1 c mem_cons_self
    have htail : (c :: l).Pairwise (· < ·) := (pairwise_append.mp hsorted).2.1
    unfold scanCompleted
    rw [assert_pos hprev]
    by_cases hlt : new < c
    · rw [if_pos hlt]
      refine ⟨[], c :: l, rfl, by simp, ?_, by simp⟩
      intro d hd
      rcases mem_cons.mp hd with rfl | hd
      · exact hlt
      · exact hlt.trans ((pairwise_cons.mp htail).1 d hd)
    · rw [if_neg hlt]
      refine (ih (i + 1) (some c) htail).imp ?_
      rintro r ⟨low, high, rfl, hlow, hhigh, hr⟩
      refine ⟨c :: low, high, rfl, ?_, hhigh, ?_⟩
      · intro d hd
        rcases mem_cons.mp hd with rfl | hd
        · exact Nat.not_lt.mp hlt
        · exact hlow d hd
      · rw [hr, length_cons, Nat.add_right_comm, Nat.add_assoc]

/-- A sorted list with a new element at its place. -/
theorem pairwise_insert {low high : List Nat} {new : Nat} (hsorted : (low ++ high).Pairwise (· < ·))
    (hlow : ∀ c ∈ low, c ≤ new) (hhigh : ∀ c ∈ high, new < c) (hnew : new ∉ low ++ high) :
    (low ++ new :: high).Pairwise (· < ·) := by
  rw [pairwise_append] at hsorted ⊢
  refine ⟨hsorted.1, pairwise_cons.mpr ⟨hhigh, hsorted.2.1⟩, fun a ha b hb => ?_⟩
  rcases mem_cons.mp hb with rfl | hb
  · refine lt_of_le_of_ne (hlow a ha) ?_
    rintro rfl
    exact hnew (mem_append_left _ ha)
  · exact hsorted.2.2 a ha b hb

theorem insertIdx_length_append (low high : List Nat) (new : Nat) :
    (low ++ high).insertIdx low.length new = low ++ new :: high := by
  induction low with
  | nil => simp
  | cons c low ih => simp [ih]

/-- **The completed indexes** stay sorted and gain the new index if it is flagged. -/
theorem updateCompletedDataIndexes_returns {isLastInData : Bool} {new : Nat}
    {received : ExtTreeSet Nat}
    {completed : List Nat} (hsorted : completed.Pairwise (· < ·)) (hnew : new ∉ completed) :
    Returns (updateCompletedDataIndexes isLastInData new received completed)
      (fun r => r.1.Pairwise (· < ·) ∧ ∀ c, c ∈ r.1 ↔ c ∈ completed ∨ isLastInData ∧ c = new)
        fun _ => False := by
  refine (scanCompleted_returns new completed 0 none hsorted).bind ?_
  rintro ⟨pos, prev⟩ ⟨low, high, rfl, hlow, hhigh, hpos⟩
  have hinsert := pairwise_insert hsorted hlow hhigh hnew
  cases high with
  | nil =>
    subst hpos
    cases isLastInData with
    | true =>
      refine ⟨?_, fun c => ?_⟩
      · simpa using hinsert
      · simp
    | false => exact ⟨hsorted, fun c => by simp⟩
  | cons h high =>
    rw [if_neg (cons_ne_nil _ _), Nat.zero_add] at hpos
    subst hpos
    have hin : low.length < (low ++ h :: high).length := by simp
    have hfirst : (index (low ++ h :: high) low.length).map some = .ok (some h) := by
      rw [index_eq_ok hin]
      simp [Except.map]
    dsimp only
    rw [hfirst]
    cases isLastInData with
    | true =>
      refine ⟨?_, fun c => ?_⟩
      · rw [insertIdx_length_append]
        exact hinsert
      · change c ∈ (low ++ h :: high).insertIdx low.length new ↔ _
        rw [mem_insertIdx (by simp)]
        simp [or_comm]
    | false => exact ⟨hsorted, fun c => by simp⟩

/-! ## The abstract content of a slot -/

/-- The metadata and the index of a slot, as functions of the data shreds inserted so far, in their
order. -/
structure Book (m : SlotMeta) (dataIndex : ExtTreeSet Nat) (inserted : List Shred) : Prop where
  listed : ∀ i, i ∈ dataIndex ↔ ∃ s ∈ inserted, s.index = i
  nodup : (inserted.map Shred.index).Nodup
  consumed_listed : ∀ i < m.consumed, i ∈ dataIndex
  consumed_missing : m.consumed ∉ dataIndex
  received_above : ∀ i ∈ dataIndex, i < m.received
  received_listed : m.received = 0 ∨ m.received - 1 ∈ dataIndex
  completed_sorted : m.completedDataIndexes.Pairwise (· < ·)
  completed_iff : ∀ i, i ∈ m.completedDataIndexes ↔
    ∃ s ∈ inserted, s.index = i ∧ (s.lastInSlot ∨ s.dataComplete)
  lastIndex_eq : m.lastIndex = ((inserted.find? Shred.lastInSlot).map Shred.index).getD U64_MAX
  beyond : ∀ i ∈ dataIndex, i ≤ m.lastIndex

/-- The part of the metadata that places the slot in the tree of slots. -/
structure SlotMeta.SameTree (m m' : SlotMeta) : Prop where
  slot : m'.slot = m.slot
  parentSlot : m'.parentSlot = m.parentSlot
  nextSlots : m'.nextSlots = m.nextSlots
  isConnected : m'.isConnected = m.isConnected

theorem Book.new (slot parentSlot : Nat) : Book (SlotMeta.new slot parentSlot) ∅ [] where
  listed i := by simp
  nodup := nodup_nil
  consumed_listed i hi := absurd hi (Nat.not_lt_zero i)
  consumed_missing := not_mem_empty
  received_above i hi := absurd hi not_mem_empty
  received_listed := .inl rfl
  completed_sorted := List.Pairwise.nil
  completed_iff i := by simp [SlotMeta.new]
  lastIndex_eq := rfl
  beyond i hi := absurd hi not_mem_empty

theorem Shred.index_lt (s : Shred) : s.index < U64_MAX := by
  have h : s.commonHeader.index.toNat < 2 ^ 32 := s.commonHeader.index.toNat_lt
  have hmax : 2 ^ 32 < U64_MAX := by decide
  exact h.trans hmax

section Insert

variable {m : SlotMeta} {dataIndex : ExtTreeSet Nat} {inserted : List Shred} {shred : Shred}

/-- What `check_insert_data_shred` has checked when it inserts a shred. -/
structure Insertable (m : SlotMeta) (dataIndex : ExtTreeSet Nat) (shred : Shred) : Prop where
  parent : m.isOrphan = false
  unconsumed : m.consumed ≤ shred.index
  fresh : shred.index ∉ dataIndex
  inside : shred.index < m.lastIndex
  ending : shred.lastInSlot → m.received ≤ shred.index

section

variable (hbook : Book m dataIndex inserted)
include hbook

/-- The least index not listed, once the shred is. -/
theorem newConsumed_returns :
    Returns (newConsumed m dataIndex shred.index)
      (fun k => (∀ i < k, i ∈ setPresent dataIndex shred.index true) ∧
        k ∉ setPresent dataIndex shred.index true ∧
        m.consumed ≤ k ∧ (m.consumed = shred.index → m.consumed < k)) fun _ => False := by
  unfold newConsumed
  by_cases hnext : m.consumed = shred.index
  · rw [if_pos hnext]
    refine (nextMissing_returns (dataIndex.size + 1) (shred.index + 1) (Nat.le_refl _) (by omega)
      fun j hj hlt => absurd hj (by omega)).imp ?_
    rintro k ⟨hall, hmissing, hk⟩
    refine ⟨fun i hi => ?_, ?_, by omega, fun _ => by omega⟩
    · rw [mem_setPresent_true]
      rcases Nat.lt_trichotomy i shred.index with hlt | rfl | hgt
      · exact .inr (hbook.consumed_listed i (by omega))
      · exact .inl rfl
      · exact .inr (hall i hgt hi)
    · rw [mem_setPresent_true]
      rintro (rfl | hmem)
      · omega
      · exact hmissing hmem
  · rw [if_neg hnext]
    refine ⟨fun i hi => mem_setPresent_true.mpr (.inr (hbook.consumed_listed i hi)),
      ?_, Nat.le_refl _,
      fun heq => absurd heq hnext⟩
    rw [mem_setPresent_true]
    rintro (heq | hmem)
    · exact hnext heq
    · exact hbook.consumed_missing hmem

/-- The last index is unknown exactly while no shred with the flag was inserted. -/
theorem Book.lastIndex_eq_max (h : m.lastIndex = U64_MAX) :
    inserted.find? Shred.lastInSlot = none := by
  have heq := hbook.lastIndex_eq
  cases hfind : inserted.find? Shred.lastInSlot with
  | none => rfl
  | some s =>
    rw [hfind, h] at heq
    exact absurd heq s.index_lt.ne'

theorem Book.lastIndex_append :
    (if m.lastIndex = U64_MAX then if shred.lastInSlot then shred.index else U64_MAX
      else m.lastIndex) =
      (((inserted ++ [shred]).find? Shred.lastInSlot).map Shred.index).getD U64_MAX := by
  rw [find?_append]
  by_cases hmax : m.lastIndex = U64_MAX
  · rw [if_pos hmax, hbook.lastIndex_eq_max hmax]
    cases hlast : shred.lastInSlot with
    | true => simp [hlast]
    | false => simp [hlast]
  · rw [if_neg hmax, hbook.lastIndex_eq]
    have heq := hbook.lastIndex_eq
    cases hfind : inserted.find? Shred.lastInSlot with
    | none =>
      rw [hfind] at heq
      exact absurd heq hmax
    | some s => rfl

theorem Book.beyond_insert (h : Insertable m dataIndex shred) :
    ∀ i ∈ setPresent dataIndex shred.index true,
      i ≤ if m.lastIndex = U64_MAX then if shred.lastInSlot then shred.index else U64_MAX
        else m.lastIndex := by
  intro i hi
  rcases mem_setPresent_true.mp hi with rfl | hi
  · split
    · split
      · exact Nat.le_refl _
      · exact shred.index_lt.le
    · exact h.inside.le
  · split
    · split
      · rename_i hlast
        exact (hbook.received_above i hi).le.trans (h.ending hlast)
      · rename_i hmax _
        exact hmax ▸ hbook.beyond i hi
    · exact hbook.beyond i hi

/-- What is known of a slot after a shred was inserted. -/
structure DataInserted.Spec (m : SlotMeta) (dataIndex : ExtTreeSet Nat)
    (inserted : List Shred) (shred : Shred) (r : DataInserted) : Prop where
  book : Book r.slotMeta r.dataIndex (inserted ++ [shred])
  dataIndex_eq : r.dataIndex = setPresent dataIndex shred.index true
  tree : m.SameTree r.slotMeta
  consumed_le : m.consumed ≤ r.slotMeta.consumed
  /-- A slot becomes full by a change of `consumed`. -/
  full : r.slotMeta.isFull → m.consumed < r.slotMeta.consumed

/-- **A shred that passed the checks** is inserted. -/
theorem insertDataShred_returns (h : Insertable m dataIndex shred) (now : Nat) :
    Returns (insertDataShred m dataIndex shred now) (DataInserted.Spec m dataIndex inserted shred)
      fun _ => False := by
  have hnew : shred.index ∉ m.completedDataIndexes := by
    intro hmem
    obtain ⟨s, hs, heq, -⟩ := (hbook.completed_iff _).mp hmem
    exact h.fresh ((hbook.listed _).mpr ⟨s, hs, heq⟩)
  unfold insertDataShred
  rw [assert_pos h.parent]
  refine (newConsumed_returns hbook).bind ?_
  rintro k ⟨hbelow, hmissing, hle, hlt⟩
  refine Returns.bind
    ((updateCompletedDataIndexes_returns hbook.completed_sorted hnew).bind fun r hr => ?_)
    fun r hr => hr
  obtain ⟨hsorted, hcompleted⟩ := hr
  have hlisted : ∀ i, i ∈ setPresent dataIndex shred.index true ↔ ∃ s ∈ inserted ++ [shred],
      s.index = i := by
    intro i
    rw [mem_setPresent_true, hbook.listed]
    simp [or_comm, eq_comm]
  have hbeyond := hbook.beyond_insert h
  refine ⟨⟨hlisted, ?_, hbelow, hmissing, ?_, ?_, hsorted, ?_, hbook.lastIndex_append, hbeyond⟩,
    rfl,
    ⟨rfl, rfl, rfl, rfl⟩, hle, ?_⟩
  · rw [map_append, nodup_append]
    refine ⟨hbook.nodup, nodup_singleton _, ?_⟩
    rintro i hi j hj rfl
    obtain ⟨s, hs, hsi⟩ := mem_map.mp hi
    rw [map_singleton, mem_singleton] at hj
    exact h.fresh ((hbook.listed _).mpr ⟨s, hs, hsi.trans hj⟩)
  · intro i hi
    rcases mem_setPresent_true.mp hi with rfl | hi
    · exact lt_max_of_lt_left (Nat.lt_succ_self _)
    · exact lt_max_of_lt_right (hbook.received_above i hi)
  · right
    change max (shred.index + 1) m.received - 1 ∈ _
    rw [mem_setPresent_true]
    rcases hbook.received_listed with hzero | hmem
    · omega
    · rcases Nat.le_total m.received (shred.index + 1) with hle | hge
      · omega
      · right
        rwa [max_eq_right hge]
  · intro i
    refine (hcompleted i).trans ?_
    rw [hbook.completed_iff, Bool.or_eq_true]
    constructor
    · rintro (⟨s, hs, heq, hflag⟩ | ⟨hflag, rfl⟩)
      · exact ⟨s, mem_append_left _ hs, heq, hflag⟩
      · exact ⟨shred, mem_append_right _ mem_cons_self, rfl, hflag⟩
    · rintro ⟨s, hs, heq, hflag⟩
      rcases mem_append.mp hs with hs | hs
      · exact .inl ⟨s, hs, heq, hflag⟩
      · rw [mem_singleton] at hs
        subst hs
        exact .inr ⟨hflag, heq.symm⟩
  · intro hfull
    by_contra hnot
    have hk : k = m.consumed := Nat.le_antisymm (Nat.not_lt.mp hnot) hle
    have hahead : m.consumed < shred.index :=
      lt_of_le_of_ne h.unconsumed fun heq => hnot (hlt heq)
    have hlast := hbeyond shred.index (mem_setPresent_true.mpr (.inl rfl))
    have hend : k = (if m.lastIndex = U64_MAX then if shred.lastInSlot then shred.index else U64_MAX
        else m.lastIndex) + 1 := beq_iff_eq.mp (Bool.and_eq_true_iff.mp hfull).2
    omega

end

end Insert

end Panoptes.Ledger
