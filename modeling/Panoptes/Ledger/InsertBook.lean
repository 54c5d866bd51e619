import Panoptes.Ledger.Blockstore

/-!
# The bookkeeping of an insertion

What holds of the working copies of a call while its shreds are inserted, recovered and cached: the
metadata and the data index of every slot are those of the shreds inserted so far (`Book`), and the
coding index lists the coding shreds that are stored or cached.

* `Committed` — the columns of the database describe the shreds inserted by the calls before.
* `Pending` — the working copies describe those and the ones inserted by this call.
* `Caching` — the coding shreds of this call.

Principal results: `checkInsertDataShred_returns`, `checkCacheCodingShred_returns`,
`tryShredRecovery_returns`: each step keeps both, and the only abort is the one of a data shred that
conflicts with another of the same call.
-/

set_option autoImplicit false

namespace Panoptes.Ledger

open Lib Sdk List Batch Option
open Std (ExtTreeMap ExtTreeSet)

variable {s shred t : Shred} {slot i lastRoot : Nat} {log new shreds : List Shred} {m : SlotMeta}
  {dataIndex : ExtTreeSet Nat} {db : Blockstore} {play : Shred → Prop} {b : Batch}

/-- The metadata of a slot in the database; a slot without any counts as an orphan without
shreds. -/
def Blockstore.slotMeta (db : Blockstore) (slot : Nat) : SlotMeta :=
  (db.slotMetas[slot]?).getD (SlotMeta.newOrphan slot)

def Blockstore.index (db : Blockstore) (slot : Nat) : Index :=
  (db.indexes[slot]?).getD (Index.new slot)

/-- The working copy of a slot's metadata, or what the database has. -/
def Batch.slotMeta (b : Batch) (slot : Nat) : SlotMeta :=
  (b.slotMetaWorkingSet[slot]?).elim (b.db.slotMeta slot) SlotMetaWorkingSetEntry.newSlotMeta

/-- The shreds of a slot among those inserted. -/
def slotLog (log : List Shred) (slot : Nat) : List Shred := log.filter fun s => s.slot = slot

def dataWrite (s : Shred) : ShredKey × List UInt8 := (shredKey s.slot s.index, s.payload)

theorem slotLog_append (log log' : List Shred) (slot : Nat) :
    slotLog (log ++ log') slot = slotLog log slot ++ slotLog log' slot := filter_append log log'

theorem slotLog_singleton (s : Shred) : slotLog [s] s.slot = [s] := by simp [slotLog]

theorem slotLog_singleton_of_ne (h : slot ≠ s.slot) : slotLog [s] slot = [] := by
  simp [slotLog, h.symm]

theorem mem_slotLog : s ∈ slotLog log slot ↔ s ∈ log ∧ s.slot = slot := by
  simp [slotLog]

/-! ## The invariants -/

/-- The database describes the data shreds inserted so far, in their order. -/
structure Committed (db : Blockstore) (log : List Shred) : Prop where
  parsed : ∀ s ∈ log, s.Parsed
  book : ∀ slot, Book (db.slotMeta slot) (db.index slot).data (slotLog log slot)
  stored : ∀ slot i, db.dataShreds[shredKey slot i]? =
    ((slotLog log slot).find? fun s => s.index = i).map Shred.payload
  coding : ∀ slot i, i ∈ (db.index slot).coding ↔ db.codeShreds[shredKey slot i]? ≠ none
  codeParsed : ∀ slot i payload, db.codeShreds[shredKey slot i]? = some payload →
    ∃ s, Shred.newFromSerializedShred payload = .ok s
  indexSlot : ∀ slot, (db.index slot).slot = slot

section

variable (db : Blockstore) (play : Shred → Prop) (shreds : List Shred) (s : Shred) (b : Batch)
  (slot : Nat)

def ValidParent (parentSlot : Nat) : Prop := parentSlot < slot ∨ slot = 0 ∧ parentSlot = 0

/-- A working copy and the metadata it was made from. -/
structure EntryOf (e : SlotMetaWorkingSetEntry) : Prop where
  old : e.oldSlotMeta = db.slotMetas[slot]?
  nextSlots : e.newSlotMeta.nextSlots = (db.slotMeta slot).nextSlots
  isConnected : e.newSlotMeta.isConnected = (db.slotMeta slot).isConnected
  parent : (db.slotMeta slot).isOrphan = false →
    e.newSlotMeta.parentSlot = (db.slotMeta slot).parentSlot
  consumed_le : (db.slotMeta slot).consumed ≤ e.newSlotMeta.consumed
  stays_full : (db.slotMeta slot).isFull → e.newSlotMeta.isFull
  valid : e.didInsertOccur → ValidParent slot e.newSlotMeta.parentSlot
  known : e.didInsertOccur → e.newSlotMeta.isOrphan = false
  not_full : e.didInsertOccur → (db.slotMeta slot).isFull = false
  newly_full : e.newSlotMeta.isFull →
    (db.slotMeta slot).isFull ∨ (db.slotMeta slot).consumed < e.newSlotMeta.consumed

/-- A parent that a working copy can have: the one that the database knows, or else that of a shred
of the slot. -/
def ParentOf (parentSlot : Nat) : Prop :=
  if (db.slotMeta slot).isOrphan then ∃ s, play s ∧ s.slot = slot ∧ s.parent = parentSlot
  else parentSlot = (db.slotMeta slot).parentSlot

/-- The working copies describe the shreds of the calls before and the `new` ones of this call. -/
structure Pending (log : List Shred) (b : Batch) (new : List Shred) : Prop where
  db_eq : b.db = db
  parsed : ∀ s ∈ new, s.Parsed
  writes : b.writeBatch.dataShreds = new.map dataWrite
  book : ∀ slot, Book (b.slotMeta slot) (b.indexEntry slot).index.data (slotLog (log ++ new) slot)
  indexInserted : ∀ s ∈ new, (b.indexEntry s.slot).didInsertOccur
  metaInserted : ∀ s ∈ new, ∃ e, b.slotMetaWorkingSet[s.slot]? = some e ∧ e.didInsertOccur
  entries : ∀ slot e, b.slotMetaWorkingSet[slot]? = some e → EntryOf db slot e
  parents : ∀ slot e, b.slotMetaWorkingSet[slot]? = some e →
    ParentOf db play slot e.newSlotMeta.parentSlot
  indexSlot : ∀ slot, (b.indexEntry slot).index.slot = slot

structure CachedCoding (i : Nat) (s : Shred) : Prop where
  fresh : db.codeShreds[shredKey slot i]? = none
  slot_eq : s.slot = slot
  index_eq : s.index = i
  isCode : s.isCode
  position : s.codingHeader.position.toNat ≤ s.index
  parsed : s.Parsed

/-- The coding index lists what is stored and what is cached. -/
structure Caching : Prop where
  coding : ∀ slot i, i ∈ (b.indexEntry slot).index.coding ↔
    db.codeShreds[shredKey slot i]? ≠ none ∨ b.justInsertedCodingShreds[shredKey slot i]? ≠ none
  cached : ∀ slot i s, b.justInsertedCodingShreds[shredKey slot i]? = some s →
    CachedCoding db slot i s
  sets : ∀ key : ShredKey, b.erasureMetas[key]? ≠ none → b.indexWorkingSet[(ofLex key).1]? ≠ none
  noCode : b.writeBatch.codeShreds = []

/-- A shred that a call can find: received by it, or stored before. -/
def Available : Prop :=
  s ∈ shreds ∨ ∃ (key : ShredKey) (payload : List UInt8),
    (db.dataShreds[key]? = some payload ∨ db.codeShreds[key]? = some payload) ∧
    Shred.newFromSerializedShred payload = .ok s

/-- The caches hold received shreds. -/
structure Sources : Prop where
  data : ∀ (key : ShredKey) s, b.justInsertedDataShreds[key]? = some s → s ∈ shreds
  coding : ∀ (key : ShredKey) s, b.justInsertedCodingShreds[key]? = some s → s ∈ shreds

/-- Two data shreds of which one ends the slot before the other, while the database knows neither
the end of the slot nor the other shred. -/
structure Conflict (ending beyond : Shred) : Prop where
  slot : ending.slot = beyond.slot
  lastInSlot : ending.lastInSlot
  index : ending.index < beyond.index
  unknownEnd : (db.slotMeta beyond.slot).lastIndex = U64_MAX
  notStored : db.dataShreds[shredKey beyond.slot beyond.index]? = none

end

/-! ## Entries of the working sets -/

section Entries

variable (b : Batch) (slot slot' : Nat)

theorem indexEntry_setIndexEntry (entry : IndexMetaWorkingSetEntry) :
    (b.setIndexEntry slot entry).indexEntry slot' = if slot' = slot then entry
      else b.indexEntry slot' := by
  unfold indexEntry setIndexEntry
  rw [getElem?_insert_ite]
  split <;> rfl

section

variable (entry : SlotMetaWorkingSetEntry)

@[simp] theorem indexEntry_setSlotMetaEntry :
    (b.setSlotMetaEntry slot entry).indexEntry slot' = b.indexEntry slot' := rfl

theorem getElem?_setSlotMetaEntry :
    (b.setSlotMetaEntry slot entry).slotMetaWorkingSet[slot']? =
      if slot' = slot then some entry else b.slotMetaWorkingSet[slot']? := getElem?_insert_ite ..

theorem slotMeta_setSlotMetaEntry :
    (b.setSlotMetaEntry slot entry).slotMeta slot' =
      if slot' = slot then entry.newSlotMeta else b.slotMeta slot' := by
  unfold slotMeta
  rw [getElem?_setSlotMetaEntry]
  split <;> rfl

end

/-- What holds of all index entries, and of a new one at its slot. -/
theorem forall_setIndexEntry {b : Batch} {slot : Nat} {entry : IndexMetaWorkingSetEntry}
    {P : Nat → IndexMetaWorkingSetEntry → Prop} (h : ∀ s, P s (b.indexEntry s))
    (hentry : P slot entry) : ∀ s, P s ((b.setIndexEntry slot entry).indexEntry s) := by
  intro s
  rw [indexEntry_setIndexEntry]
  split
  · rename_i heq
    exact heq ▸ hentry
  · exact h s

/-- What holds of all slot meta entries, and of a new one at its slot. -/
theorem forall_setSlotMetaEntry {b : Batch} {slot : Nat} {entry : SlotMetaWorkingSetEntry}
    {P : Nat → SlotMetaWorkingSetEntry → Prop}
    (h : ∀ s e, b.slotMetaWorkingSet[s]? = some e → P s e) (hentry : P slot entry) :
    ∀ s e, (b.setSlotMetaEntry slot entry).slotMetaWorkingSet[s]? = some e → P s e := by
  intro s e he
  rw [getElem?_setSlotMetaEntry] at he
  split at he
  · rename_i heq
    cases he
    exact heq ▸ hentry
  · exact h s e he

theorem getElem?_setIndexEntry (entry : IndexMetaWorkingSetEntry) :
    (b.setIndexEntry slot entry).indexWorkingSet[slot']? =
      if slot' = slot then some entry else b.indexWorkingSet[slot']? := getElem?_insert_ite ..

theorem setIndexEntry_ne_none {b : Batch} {slot' : Nat} (entry : IndexMetaWorkingSetEntry)
    (h : b.indexWorkingSet[slot']? ≠ none) :
    (b.setIndexEntry slot entry).indexWorkingSet[slot']? ≠ none := by
  rw [getElem?_setIndexEntry]
  split
  · exact some_ne_none _
  · exact h

end Entries

theorem Book.withParent {inserted : List Shred} (h : Book m dataIndex inserted)
    (parentSlot : Nat) : Book { m with parentSlot } dataIndex inserted :=
  { h with }

/-- A new working copy differs from the database only in a parent that was not known. -/
theorem Batch.slotMetaEntry_of_none (h : b.slotMetaWorkingSet[slot]? = none) (parentSlot : Nat) :
    ∃ p, b.slotMetaEntry slot parentSlot =
        { newSlotMeta := { b.db.slotMeta slot with parentSlot := p }
          oldSlotMeta := b.db.slotMetas[slot]?
          didInsertOccur := false } ∧
      p = if (b.db.slotMeta slot).isOrphan then parentSlot
        else (b.db.slotMeta slot).parentSlot := by
  have hbase : b.db.slotMeta slot = (b.db.slotMetas[slot]?).getD (SlotMeta.newOrphan slot) := rfl
  unfold slotMetaEntry
  rw [h, hbase]
  cases b.db.slotMetas[slot]? with
  | none =>
    have horphan : (SlotMeta.newOrphan slot).isOrphan = true := rfl
    exact ⟨parentSlot, rfl, (if_pos horphan).symm⟩
  | some m =>
    by_cases horphan : m.isOrphan
    · refine ⟨parentSlot, ?_, (if_pos horphan).symm⟩
      simp only [horphan, if_true, getD_some]
    · refine ⟨m.parentSlot, ?_, (if_neg horphan).symm⟩
      simp only [horphan]
      rfl

/-- The entry that is made for a slot describes the same shreds, and comes from the database. -/
theorem Pending.slotMetaEntry (h : Pending db play log b new) (hplay : play shred) :
    Book (b.slotMetaEntry shred.slot shred.parent).newSlotMeta (b.indexEntry shred.slot).index.data
        (slotLog (log ++ new) shred.slot) ∧
      EntryOf db shred.slot (b.slotMetaEntry shred.slot shred.parent) ∧
      ParentOf db play shred.slot
        (b.slotMetaEntry shred.slot shred.parent).newSlotMeta.parentSlot := by
  have hbook := h.book shred.slot
  unfold slotMeta at hbook
  cases he : b.slotMetaWorkingSet[shred.slot]? with
  | some e =>
    have hentry : b.slotMetaEntry shred.slot shred.parent = e := by
      unfold Batch.slotMetaEntry
      rw [he]
    rw [he] at hbook
    rw [hentry]
    exact ⟨hbook, h.entries _ e he, h.parents _ e he⟩
  | none =>
    obtain ⟨p, hentry, hp⟩ := slotMetaEntry_of_none he shred.parent
    rw [he] at hbook
    rw [hentry, h.db_eq] at *
    have hknown : (db.slotMeta shred.slot).isOrphan = false →
        p = (db.slotMeta shred.slot).parentSlot := by
      intro horphan
      rw [hp, horphan]
      rfl
    refine ⟨hbook.withParent p,
      ⟨rfl, rfl, rfl, hknown, Nat.le_refl _, id, nofun, nofun, nofun, .inl⟩, ?_⟩
    unfold ParentOf
    split
    · rename_i horphan
      exact ⟨shred, hplay, rfl, (hp.trans (if_pos horphan)).symm⟩
    · rename_i horphan
      exact hknown (Bool.eq_false_of_not_eq_true horphan)

theorem indexEntry_getEntries (slot parentSlot slot' : Nat) :
    (b.getEntries slot parentSlot).indexEntry slot' = b.indexEntry slot' := by
  unfold getEntries
  rw [indexEntry_setSlotMetaEntry, indexEntry_setIndexEntry]
  split
  · rename_i heq
    rw [heq]
  · rfl

/-- Entries of the working sets that are made on the way do not change what they describe. -/
theorem Pending.getEntries (h : Pending db play log b new) (hplay : play shred) :
    Pending db play log (b.getEntries shred.slot shred.parent) new := by
  obtain ⟨hbook, hentry, hparent⟩ := h.slotMetaEntry hplay
  constructor
  case db_eq => exact h.db_eq
  case parsed => exact h.parsed
  case writes => exact h.writes
  case book =>
    intro slot'
    rw [indexEntry_getEntries]
    unfold Batch.getEntries
    rw [slotMeta_setSlotMetaEntry]
    split
    · rename_i heq
      subst heq
      exact hbook
    · exact h.book slot'
  case indexInserted =>
    intro s hs
    rw [indexEntry_getEntries]
    exact h.indexInserted s hs
  case metaInserted =>
    intro s hs
    obtain ⟨e, he, hinserted⟩ := h.metaInserted s hs
    unfold Batch.getEntries
    rw [getElem?_setSlotMetaEntry]
    split
    · rename_i heq
      refine ⟨e, congrArg some ?_, hinserted⟩
      unfold Batch.slotMetaEntry
      rw [← heq, he]
    · exact ⟨e, he, hinserted⟩
  case entries => exact forall_setSlotMetaEntry h.entries hentry
  case parents => exact forall_setSlotMetaEntry h.parents hparent
  case indexSlot =>
    intro slot'
    rw [indexEntry_getEntries]
    exact h.indexSlot slot'

theorem Caching.setIndexEntry (h : Caching db b) {slot : Nat} {entry : IndexMetaWorkingSetEntry}
    (hentry : entry.index.coding = (b.indexEntry slot).index.coding) :
    Caching db (b.setIndexEntry slot entry) := by
  constructor
  case coding =>
    intro slot' i
    rw [indexEntry_setIndexEntry]
    refine Iff.trans ?_ (h.coding slot' i)
    split
    · rename_i heq
      rw [heq, hentry]
    · rfl
  case cached => exact h.cached
  case sets => exact fun key hkey => setIndexEntry_ne_none slot entry (h.sets key hkey)
  case noCode => exact h.noCode

theorem Caching.setSlotMetaEntry (h : Caching db b) (slot : Nat) (entry : SlotMetaWorkingSetEntry) :
    Caching db (b.setSlotMetaEntry slot entry) := { h with }

theorem Caching.getEntries (h : Caching db b) (slot parentSlot : Nat) :
    Caching db (b.getEntries slot parentSlot) :=
  (h.setIndexEntry rfl).setSlotMetaEntry _ _

theorem Pending.duplicateSlots (h : Pending db play log b new)
    (d : ExtTreeMap Nat (List UInt8 × List UInt8)) :
    Pending db play log { b with duplicateSlots := d } new :=
  { h with }

theorem Caching.duplicateSlots (h : Caching db b) (d : ExtTreeMap Nat (List UInt8 × List UInt8)) :
    Caching db { b with duplicateSlots := d } := { h with }

theorem Batch.exists_storeDuplicate (b : Batch) (slot : Nat) (shred1 shred2 : List UInt8) :
    ∃ d, b.storeDuplicateIfNotExisting slot shred1 shred2 = { b with duplicateSlots := d } := by
  unfold storeDuplicateIfNotExisting
  split
  · exact ⟨b.duplicateSlots, rfl⟩
  · exact ⟨_, rfl⟩

/-! ## Data shreds -/

/-- Why a data shred aborts the call: what it conflicts with is not in the database. -/
structure Unstored (db : Blockstore) (shred : Shred) (m : SlotMeta)
    (dataIndex : ExtTreeSet Nat) : Prop where
  fresh : shred.index ∉ dataIndex
  reason : (m.lastIndex ≤ shred.index ∧ db.dataShreds[shredKey shred.slot m.lastIndex]? = none) ∨
    (shred.lastInSlot ∧ shred.index < m.received ∧
      db.dataShreds[shredKey shred.slot (m.received - 1)]? = none)

variable (env : InsertEnv)

/-- **The checks of a data shred.** -/
theorem checkDataShred_returns (b : Batch) (shred : Shred) (m : SlotMeta)
    (dataIndex : ExtTreeSet Nat) :
    Returns (checkDataShred env false b shred m dataIndex)
      (fun r => (∃ d, r.1 = { b with duplicateSlots := d }) ∧ (r.2 = none →
        r.1 = b ∧ m.consumed ≤ shred.index ∧ shred.index ∉ dataIndex ∧ shred.index < m.lastIndex ∧
          (shred.lastInSlot → m.received ≤ shred.index) ∧
            verifyShredSlots shred.slot m.parentSlot env.lastRoot))
      fun _ => Unstored b.db shred m dataIndex := by
  unfold checkDataShred
  by_cases hpresent : isDataShredPresent shred m dataIndex
  · rw [if_pos hpresent]
    exact ⟨⟨b.duplicateSlots, rfl⟩, nofun⟩
  · rw [if_neg hpresent]
    have hconsumed : m.consumed ≤ shred.index := by
      by_contra hlt
      exact hpresent (Bool.or_eq_true_iff.mpr (.inl (decide_eq_true (Nat.not_le.mp hlt))))
    have hfresh : shred.index ∉ dataIndex := fun hmem =>
      hpresent (Bool.or_eq_true_iff.mpr (.inr (ExtTreeSet.contains_iff_mem.mpr hmem)))
    unfold shouldInsertDataShred
    by_cases hlast : m.lastIndex ≤ shred.index
    · rw [if_pos hlast]
      cases hget : b.db.dataShreds[shredKey shred.slot m.lastIndex]? with
      | none => exact ⟨hfresh, .inl ⟨hlast, hget⟩⟩
      | some => exact ⟨b.exists_storeDuplicate .., nofun⟩
    · rw [if_neg hlast]
      by_cases hending : shred.lastInSlot ∧ shred.index < m.received
      · rw [if_pos hending]
        cases hget : b.db.dataShreds[shredKey shred.slot (m.received - 1)]? with
        | none => exact ⟨hfresh, .inr ⟨hending.1, hending.2, hget⟩⟩
        | some => exact ⟨b.exists_storeDuplicate .., nofun⟩
      · rw [if_neg hending]
        refine ⟨⟨b.duplicateSlots, rfl⟩,
          fun hnone => ⟨rfl, hconsumed, hfresh, Nat.not_le.mp hlast, ?_, ?_⟩⟩
        · exact fun hflag => Nat.not_lt.mp fun hlt => hending ⟨hflag, hlt⟩
        · by_contra hverify
          rw [if_neg hverify] at hnone
          cases hnone

theorem validParent_of_verifyShredSlots {parentSlot : Nat}
    (h : verifyShredSlots slot parentSlot lastRoot) : ValidParent slot parentSlot := by
  unfold verifyShredSlots isValidWriteToSlot0 at h
  simp only [Bool.or_eq_true, Bool.and_eq_true, beq_iff_eq, decide_eq_true_eq] at h
  rcases h with ⟨⟨hslot, -⟩, hparent⟩ | ⟨hlt, -⟩
  · exact .inr ⟨hslot, hparent⟩
  · exact .inl hlt

theorem Shred.slot_le (s : Shred) : s.slot ≤ U64_MAX := by
  have h : s.commonHeader.slot.toNat < 2 ^ 64 := s.commonHeader.slot.toNat_lt
  exact Nat.le_pred_of_lt h

theorem ValidParent.isOrphan_eq_false (shred : Shred) (h : ValidParent shred.slot m.parentSlot) :
    m.isOrphan = false := by
  have hslot := shred.slot_le
  have hpos : 0 < U64_MAX := by decide
  have hne : m.parentSlot ≠ U64_MAX := by
    rcases h with h | ⟨-, h⟩ <;> omega
  simp [SlotMeta.isOrphan, SlotMeta.isParentSet, hne]

theorem SlotMeta.isFull_iff :
    m.isFull = true ↔ m.lastIndex ≠ U64_MAX ∧ m.consumed = m.lastIndex + 1 := by
  simp [isFull]

theorem Insertable.not_full (h : Insertable m dataIndex shred) : m.isFull = false := by
  rw [Bool.eq_false_iff, Ne, SlotMeta.isFull_iff]
  have h₁ := h.unconsumed
  have h₂ := h.inside
  omega

theorem Pending.insertedData (h : Pending db play log b new) (hshred : shred.Parsed)
    {e : SlotMetaWorkingSetEntry} (he : EntryOf db shred.slot e) {r : DataInserted}
    (hinsertable : Insertable e.newSlotMeta (b.indexEntry shred.slot).index.data shred)
    (hvalid : ValidParent shred.slot e.newSlotMeta.parentSlot)
    (hparent : ParentOf db play shred.slot e.newSlotMeta.parentSlot)
    (hr : DataInserted.Spec e.newSlotMeta (b.indexEntry shred.slot).index.data
      (slotLog (log ++ new) shred.slot) shred r) :
    Pending db play log (b.insertedData shred (b.indexEntry shred.slot) e r) (new ++ [shred]) := by
  have hbase : (db.slotMeta shred.slot).isFull = false := by
    by_contra hfull
    rw [Bool.not_eq_false] at hfull
    exact absurd ((he.stays_full hfull).symm.trans hinsertable.not_full) (by decide)
  have hvalid' : ValidParent shred.slot r.slotMeta.parentSlot := by
    rw [hr.tree.parentSlot]
    exact hvalid
  constructor
  case db_eq => exact h.db_eq
  case parsed => exact forall_mem_concat.mpr ⟨h.parsed, hshred⟩
  case writes =>
    change b.writeBatch.dataShreds ++ [dataWrite shred] = _
    rw [h.writes, map_append]
    rfl
  case book =>
    intro slot
    unfold Batch.insertedData
    rw [slotMeta_setSlotMetaEntry, indexEntry_setSlotMetaEntry,
      indexEntry_setIndexEntry, ← append_assoc,
      slotLog_append]
    by_cases hslot : slot = shred.slot
    · rw [if_pos hslot, if_pos hslot, hslot, slotLog_singleton]
      exact hr.book
    · rw [if_neg hslot, if_neg hslot, slotLog_singleton_of_ne hslot, append_nil]
      exact h.book slot
  case indexInserted =>
    unfold Batch.insertedData
    simp only [indexEntry_setSlotMetaEntry, indexEntry_setIndexEntry]
    refine forall_mem_concat.mpr ⟨fun s hs => ?_, by rw [if_pos rfl]⟩
    split
    · rfl
    · exact h.indexInserted s hs
  case metaInserted =>
    unfold Batch.insertedData
    simp only [getElem?_setSlotMetaEntry]
    refine forall_mem_concat.mpr ⟨fun s hs => ?_, _, if_pos rfl, rfl⟩
    split
    · exact ⟨_, rfl, rfl⟩
    · exact h.metaInserted s hs
  case entries =>
    refine forall_setSlotMetaEntry h.entries ?_
    constructor
    case old => exact he.old
    case nextSlots => exact hr.tree.nextSlots.trans he.nextSlots
    case isConnected => exact hr.tree.isConnected.trans he.isConnected
    case parent => exact fun hknown => hr.tree.parentSlot.trans (he.parent hknown)
    case consumed_le => exact he.consumed_le.trans hr.consumed_le
    case stays_full => exact fun hfull => absurd (hfull.symm.trans hbase) (by decide)
    case valid => exact fun _ => hvalid'
    case known => exact fun _ => ValidParent.isOrphan_eq_false shred hvalid'
    case not_full => exact fun _ => hbase
    case newly_full => exact fun hfull => .inr (he.consumed_le.trans_lt (hr.full hfull))
  case parents =>
    refine forall_setSlotMetaEntry h.parents ?_
    rw [hr.tree.parentSlot]
    exact hparent
  case indexSlot =>
    exact forall_setIndexEntry (P := fun s e => e.index.slot = s) h.indexSlot (h.indexSlot _)

/-- A set that a data shred brings into the working set is one of its slot. -/
theorem getElem?_recordData_erasureMetas {key : ShredKey}
    (h : (b.recordData shred).erasureMetas[key]? ≠ none) :
    b.erasureMetas[key]? ≠ none ∨ (ofLex key).1 = shred.slot := by
  unfold recordData at h
  dsimp only at h
  split at h
  · exact .inl h
  · split at h
    · rw [getElem?_insert_ite] at h
      split at h
      · rename_i hkey
        rw [hkey]
        exact .inr rfl
      · exact .inl h
    · exact .inl h

theorem Caching.insertedData (h : Caching db b) (shred : Shred) (e : SlotMetaWorkingSetEntry)
    (r : DataInserted) : Caching db (b.insertedData shred (b.indexEntry shred.slot) e r) := by
  constructor
  case coding =>
    intro slot i
    unfold Batch.insertedData
    rw [indexEntry_setSlotMetaEntry, indexEntry_setIndexEntry]
    refine Iff.trans ?_ (h.coding slot i)
    split
    · rename_i hslot
      rw [hslot]
    · rfl
  case cached => exact h.cached
  case sets =>
    intro key hkey
    change ((b.recordData shred).setIndexEntry shred.slot _).indexWorkingSet[_]? ≠ none
    rw [getElem?_setIndexEntry]
    split
    · exact some_ne_none _
    · rename_i hslot
      rcases getElem?_recordData_erasureMetas hkey with hold | hnew
      · exact h.sets key hold
      · exact absurd hnew hslot
  case noCode => exact h.noCode

section

variable (hdb : Committed db log)
include hdb

theorem Committed.dataShreds_eq_none_iff :
    db.dataShreds[shredKey slot i]? = none ↔ ∀ s ∈ slotLog log slot, s.index ≠ i := by
  rw [hdb.stored]
  simp

/-- The end of the slot that the database knows stays its end. -/
theorem Committed.lastIndex_append (new : List Shred)
    (h : (db.slotMeta slot).lastIndex ≠ U64_MAX) :
    ∃ u ∈ slotLog log slot, (slotLog (log ++ new) slot).find? Shred.lastInSlot = some u := by
  have heq := (hdb.book slot).lastIndex_eq
  cases hfind : (slotLog log slot).find? Shred.lastInSlot with
  | none =>
    rw [hfind] at heq
    exact absurd heq h
  | some u =>
    refine ⟨u, mem_of_find?_eq_some hfind, ?_⟩
    rw [slotLog_append, find?_append, hfind]
    rfl

/-- A shred that aborts the call conflicts with one that the same call inserted. -/
theorem Unstored.conflict (hbook : Book m dataIndex (slotLog (log ++ new) shred.slot))
    (h : Unstored db shred m dataIndex) :
    ∃ u ∈ new, Conflict db u shred ∨ Conflict db shred u := by
  have hnew : ∀ u ∈ slotLog (log ++ new) shred.slot, db.dataShreds[shredKey shred.slot u.index]? =
      none → u ∈ new := by
    intro u hu hnone
    obtain ⟨hmem, hslot⟩ := mem_slotLog.mp hu
    rcases mem_append.mp hmem with hlog | hnew
    · exact absurd rfl (hdb.dataShreds_eq_none_iff.mp hnone u (mem_slotLog.mpr ⟨hlog, hslot⟩))
    · exact hnew
  rcases h.reason with ⟨hlast, hnone⟩ | ⟨hflag, hlt, hnone⟩
  · -- The end of the slot that the shred lies beyond was inserted by this call.
    have hknown : m.lastIndex ≠ U64_MAX := (hlast.trans_lt shred.index_lt).ne
    have heq := hbook.lastIndex_eq
    cases hfind : (slotLog (log ++ new) shred.slot).find? Shred.lastInSlot with
    | none =>
      rw [hfind] at heq
      exact absurd heq hknown
    | some u =>
      rw [hfind] at heq
      rw [heq] at hlast hnone
      have hu := mem_of_find?_eq_some hfind
      have hslot := (mem_slotLog.mp hu).2
      refine ⟨u, hnew u hu hnone, .inl ⟨hslot, find?_some hfind, ?_, ?_, ?_⟩⟩
      · refine lt_of_le_of_ne hlast fun heq' => h.fresh ?_
        exact (hbook.listed _).mpr ⟨u, hu, heq'⟩
      · by_contra hend
        obtain ⟨u', hu', hfind'⟩ := hdb.lastIndex_append new hend
        rw [hfind] at hfind'
        cases hfind'
        exact hdb.dataShreds_eq_none_iff.mp hnone u hu' rfl
      · rw [hdb.dataShreds_eq_none_iff]
        intro s hs heq'
        refine h.fresh ((hbook.listed _).mpr ⟨s, ?_, heq'⟩)
        rw [slotLog_append]
        exact mem_append_left _ hs
  · -- The greatest shred received, which the ending shred lies before, was inserted by this call.
    have hmem : m.received - 1 ∈ dataIndex := hbook.received_listed.resolve_left (by omega)
    obtain ⟨t, ht, hti⟩ := (hbook.listed _).mp hmem
    rw [← hti] at hnone
    have hslot := (mem_slotLog.mp ht).2
    refine ⟨t, hnew t ht hnone, .inr ⟨hslot.symm, hflag, ?_, ?_, ?_⟩⟩
    · refine lt_of_le_of_ne (by omega) fun heq => h.fresh ?_
      exact (hbook.listed _).mpr ⟨t, ht, heq.symm⟩
    · rw [hslot]
      by_contra hend
      obtain ⟨u, hu, hfind⟩ := hdb.lastIndex_append new hend
      have hlast := hbook.lastIndex_eq
      rw [hfind] at hlast
      change m.lastIndex = u.index at hlast
      have hmem' : u.index ∈ dataIndex := (hbook.listed _).mpr ⟨u, mem_of_find?_eq_some hfind, rfl⟩
      have hle := hbook.beyond _ hmem
      have hlt' := hbook.received_above _ hmem'
      exact hdb.dataShreds_eq_none_iff.mp hnone u hu (by omega)
    · rw [hslot]
      exact hnone

/-- The checks of `verify_shred_slots` can let shreds of the slot through. -/
def Accepts (db : Blockstore) (play : Shred → Prop) (slot : Nat) : Prop :=
  ∃ parentSlot, ParentOf db play slot parentSlot ∧ verifyShredSlots slot parentSlot env.lastRoot

/-- **One data shred**, received or recovered. -/
theorem checkInsertDataShred_returns (h : Pending db play log b new)
    (hcaching : Caching db b) (hplay : play shred) (hshred : shred.Parsed) :
    Returns (checkInsertDataShred env false b shred)
      (fun r => (∃ new', (new' = new ∨ new' = new ++ [shred] ∧ Accepts env db play shred.slot) ∧
          Pending db play log r.1 new') ∧ Caching db r.1 ∧
        ∀ shreds, shred ∈ shreds → Sources shreds b → Sources shreds r.1)
      fun _ => ∃ u ∈ new, Conflict db u shred ∨ Conflict db shred u := by
  obtain ⟨hbook, hentry, hparent⟩ := h.slotMetaEntry hplay
  have hpending := h.getEntries hplay
  have hcaching' := hcaching.getEntries shred.slot shred.parent
  refine ((checkDataShred_returns env _ shred _ _).imp_error fun e hunstored => ?_).bind ?_
  · have hdb_eq : (b.getEntries shred.slot shred.parent).db = db := hpending.db_eq
    rw [hdb_eq] at hunstored
    exact hunstored.conflict hdb hbook
  · rintro ⟨b', error⟩ ⟨⟨d, hd⟩, hchecks⟩
    cases error with
    | some =>
      rw [hd]
      exact ⟨⟨new, .inl rfl, hpending.duplicateSlots d⟩, hcaching'.duplicateSlots d,
        fun shreds _ hsources => { hsources with }⟩
    | none =>
      obtain ⟨rfl, hconsumed, hfresh, hinside, hending, hverify⟩ := hchecks rfl
      have hvalid := validParent_of_verifyShredSlots hverify
      have hinsertable : Insertable (b.slotMetaEntry shred.slot shred.parent).newSlotMeta
          (b.indexEntry shred.slot).index.data shred :=
        ⟨hvalid.isOrphan_eq_false, hconsumed, hfresh, hinside, hending⟩
      refine ((insertDataShred_returns hbook hinsertable _).imp_error fun _ hfalse =>
        hfalse.elim).bind fun r hr => ?_
      have hindex := indexEntry_getEntries (b := b) shred.slot shred.parent shred.slot
      refine ⟨⟨new ++ [shred], .inr ⟨rfl, _, hparent, hverify⟩, ?_⟩, ?_, fun shreds hmem hsources =>
        ⟨fun key s hs => ?_, hsources.coding⟩⟩
      · rw [← hindex] at hinsertable hr ⊢
        exact hpending.insertedData hshred hentry hinsertable hvalid hparent hr
      · rw [← hindex]
        exact hcaching'.insertedData shred _ r
      · rcases getElem?_insert_eq_some hs with ⟨-, rfl⟩ | hs
        · exact hmem
        · exact hsources.data key s hs

end

/-! ## Coding shreds -/

theorem Pending.setIndexEntry (h : Pending db play log b new) {slot : Nat}
    {entry : IndexMetaWorkingSetEntry}
    (hdata : entry.index.data = (b.indexEntry slot).index.data) (hslot : entry.index.slot = slot)
    (hinserted : (b.indexEntry slot).didInsertOccur → entry.didInsertOccur) :
    Pending db play log (b.setIndexEntry slot entry) new := by
  constructor
  case db_eq => exact h.db_eq
  case parsed => exact h.parsed
  case writes => exact h.writes
  case book =>
    refine forall_setIndexEntry (P := fun s e => Book (b.slotMeta s) e.index.data _) h.book ?_
    rw [hdata]
    exact h.book slot
  case indexInserted =>
    intro s hs
    rw [indexEntry_setIndexEntry]
    split
    · rename_i heq
      exact hinserted (heq ▸ h.indexInserted s hs)
    · exact h.indexInserted s hs
  case metaInserted => exact h.metaInserted
  case entries => exact h.entries
  case parents => exact h.parents
  case indexSlot => exact forall_setIndexEntry (P := fun s e => e.index.slot = s) h.indexSlot hslot

/-- The caches of shreds and erasure sets are none of the working copies. -/
theorem Pending.caches (h : Pending db play log b new) (coding data : ExtTreeMap ShredKey Shred)
    (erasureMetas : ExtTreeMap ShredKey ErasureMeta) :
    Pending db play log { b with
      justInsertedCodingShreds := coding, justInsertedDataShreds := data,
        erasureMetas := erasureMetas } new :=
  { h with }

theorem indexEntry_cacheCodingShred (b : Batch) (shred : Shred) (slot : Nat) :
    (b.cacheCodingShred shred).indexEntry slot = b.indexEntry slot := by
  unfold cacheCodingShred
  dsimp only
  split <;> rfl

theorem Pending.cacheCodingShred (h : Pending db play log b new) (shred : Shred) :
    Pending db play log (b.cacheCodingShred shred) new := by
  unfold Batch.cacheCodingShred
  dsimp only
  split
  · exact h
  · exact h.caches _ _ _

theorem findConflicting_returns (hdb : Committed db log) (hb : b.db = db) (shred : Shred)
    (indices : List Nat) :
    Returns (findConflicting b shred indices) (fun _ => True) fun _ => False := by
  induction indices with
  | nil => trivial
  | cons i indices ih =>
    unfold findConflicting
    cases hcode : b.db.codeShreds[shredKey shred.slot i]? with
    | some =>
      rw [hb] at hcode
      obtain ⟨s, hs⟩ := hdb.codeParsed _ _ _ hcode
      dsimp only
      rw [hs]
      trivial
    | none =>
      cases b.justInsertedCodingShreds[shredKey shred.slot i]? with
      | some => trivial
      | none => exact ih

theorem isCode_of_shouldInsert (hshred : shred.Parsed)
    (h : shouldInsertCodingShred shred lastRoot) :
    shred.isCode ∧ shred.codingHeader.position.toNat ≤ shred.index := by
  unfold shouldInsertCodingShred at h
  split at h
  · cases h
  · rename_i hnot
    simp only [Bool.or_eq_true, decide_eq_true_eq, not_or, Nat.not_lt] at hnot
    exact ⟨hshred.isData_or_isCode.resolve_left hnot.1, hnot.2⟩

/-- A coding shred enters the cache and the index. -/
theorem Caching.cacheCodingShred (h : Caching db b)
    (hcached : CachedCoding db shred.slot shred.index shred)
    (hnot : b.justInsertedCodingShreds[shredKey shred.slot shred.index]? = none) :
    Caching db ((b.cacheCodingShred shred).setIndexEntry shred.slot { b.indexEntry shred.slot with
      index := { (b.indexEntry shred.slot).index with
        coding := setPresent (b.indexEntry shred.slot).index.coding shred.index true } }) := by
  have hcache : b.cacheCodingShred shred = { b with
      justInsertedCodingShreds := b.justInsertedCodingShreds.insert
        (shredKey shred.slot shred.index) shred } := by
    unfold Batch.cacheCodingShred
    rw [if_neg]
    rw [ExtTreeMap.contains_iff_mem, ← ExtTreeMap.isSome_getElem?_iff_mem, hnot]
    exact Bool.false_ne_true
  rw [hcache]
  constructor
  case coding =>
    intro slot i
    rw [indexEntry_setIndexEntry]
    change _ ↔ _ ∨
        (b.justInsertedCodingShreds.insert (shredKey shred.slot shred.index)
          shred)[shredKey slot i]? ≠ none
    rw [getElem?_insert_shredKey]
    by_cases hslot : slot = shred.slot
    · rw [if_pos hslot]
      rw [mem_setPresent_true, h.coding, hslot]
      by_cases hi : i = shred.index
      · simp [hi]
      · simp [hi]
    · rw [if_neg hslot, if_neg fun heq => hslot heq.1]
      exact h.coding slot i
  case cached =>
    intro slot i s hs
    change (b.justInsertedCodingShreds.insert (shredKey shred.slot shred.index) shred)[shredKey slot
        i]? = some s at hs
    rw [getElem?_insert_shredKey] at hs
    split at hs
    · rename_i heq
      cases hs
      rw [heq.1, heq.2]
      exact hcached
    · exact h.cached slot i s hs
  case sets => exact fun key hkey => setIndexEntry_ne_none _ _ (h.sets key hkey)
  case noCode => exact h.noCode

theorem Sources.cacheCodingShred {shreds : List Shred} (h : Sources shreds b)
    (hmem : shred ∈ shreds) : Sources shreds (b.cacheCodingShred shred) := by
  unfold Batch.cacheCodingShred
  dsimp only
  split
  · exact h
  · refine ⟨h.data, fun key s hs => ?_⟩
    rcases getElem?_insert_eq_some hs with ⟨-, rfl⟩ | hs
    · exact hmem
    · exact h.coding key s hs

/-- An erasure set of a slot that has an index entry. -/
theorem Caching.insertErasureMeta (h : Caching db b) (hslot : b.indexWorkingSet[slot]? ≠ none)
    (setIndex : Nat) (m : ErasureMeta) :
    Caching db { b with erasureMetas := b.erasureMetas.insert (shredKey slot setIndex) m } := by
  refine ⟨h.coding, h.cached, fun key hkey => ?_, h.noCode⟩
  rw [getElem?_insert_ite] at hkey
  split at hkey
  · rename_i heq
    rw [heq]
    exact hslot
  · exact h.sets key hkey

/-- **One coding shred.** -/
theorem checkCacheCodingShred_returns (hdb : Committed db log) (h : Pending db play log b new)
    (hcaching : Caching db b) (hshred : shred.Parsed) :
    Returns (checkCacheCodingShred env false b shred)
      (fun r => Pending db play log r.1 new ∧ Caching db r.1 ∧
        ∀ shreds, shred ∈ shreds → Sources shreds b → Sources shreds r.1) fun _ => False := by
  have hpending : Pending db play log (b.setIndexEntry shred.slot (b.indexEntry shred.slot)) new :=
    h.setIndexEntry rfl (h.indexSlot _) id
  have hcaching' : Caching db (b.setIndexEntry shred.slot (b.indexEntry shred.slot)) :=
    hcaching.setIndexEntry rfl
  have hentry : (b.setIndexEntry shred.slot (b.indexEntry shred.slot)).indexEntry shred.slot =
      b.indexEntry shred.slot := by rw [indexEntry_setIndexEntry, if_pos rfl]
  have hslot : (b.setIndexEntry shred.slot (b.indexEntry shred.slot)).indexWorkingSet[shred.slot]? ≠
      none := by
    rw [getElem?_setIndexEntry, if_pos rfl]
    exact some_ne_none _
  have hsame : ∀ shreds, Sources shreds b →
      Sources shreds (b.setIndexEntry shred.slot (b.indexEntry shred.slot)) :=
    fun shreds hsources => { hsources with }
  unfold checkCacheCodingShred
  dsimp only
  generalize b.setIndexEntry shred.slot (b.indexEntry shred.slot) = b₁ at *
  rw [← hentry]
  split
  · exact ⟨hpending, hcaching', fun shreds _ hsources => hsame shreds hsources⟩
  · rename_i hchecks
    simp only [Bool.not_false, Bool.true_and, Bool.or_eq_true, Bool.not_eq_true', not_or,
      Bool.not_eq_true,
      Bool.not_eq_false] at hchecks
    obtain ⟨hfresh, hshould⟩ := hchecks
    obtain ⟨hcode, hposition⟩ := isCode_of_shouldInsert hshred hshould
    have hnot : shred.index ∉ (b₁.indexEntry shred.slot).index.coding := fun hmem =>
      absurd (hfresh.symm.trans (ExtTreeSet.contains_iff_mem.mpr hmem)) (by decide)
    rw [hcaching'.coding, not_or, not_not, not_not] at hnot
    generalize b₁.erasureMeta shred _ = m
    have hpending₂ := hpending.caches b₁.justInsertedCodingShreds b₁.justInsertedDataShreds
      (b₁.erasureMetas.insert (shredKey shred.slot shred.fecSetIndex) m)
    have hcaching₂ := hcaching'.insertErasureMeta hslot shred.fecSetIndex m
    split
    · refine (findConflicting_returns hdb hpending₂.db_eq shred _).bind fun conflicting _ => ?_
      cases conflicting with
      | none =>
        exact ⟨hpending₂, hcaching₂, fun shreds _ hsources => { hsame _ hsources with }⟩
      | some c =>
        obtain ⟨d, hd⟩ := exists_storeDuplicate
          { b₁ with
            erasureMetas := b₁.erasureMetas.insert (shredKey shred.slot shred.fecSetIndex) m }
              shred.slot c
          shred.payload
        change Pending db play log (storeDuplicateIfNotExisting _ _ _ _) new ∧
          Caching db (storeDuplicateIfNotExisting _ _ _ _) ∧
          ∀ shreds, _ → _ → Sources shreds (storeDuplicateIfNotExisting _ _ _ _)
        rw [hd]
        exact ⟨hpending₂.duplicateSlots d, hcaching₂.duplicateSlots d,
          fun shreds _ hsources => { hsame _ hsources with }⟩
    · refine ⟨?_, hcaching₂.cacheCodingShred ⟨hnot.1, rfl, rfl, hcode, hposition, hshred⟩ hnot.2,
        fun shreds hmem hsources => ?_⟩
      rotate_left
      · have hsources₂ : Sources shreds { b₁ with
            erasureMetas := b₁.erasureMetas.insert (shredKey shred.slot shred.fecSetIndex) m } :=
          { hsame _ hsources with }
        have hcached := hsources₂.cacheCodingShred hmem
        exact ⟨hcached.data, hcached.coding⟩
      refine (hpending₂.cacheCodingShred shred).setIndexEntry ?_ (hpending.indexSlot _) ?_
      · rw [indexEntry_cacheCodingShred]
        rfl
      · rw [indexEntry_cacheCodingShred]
        exact id

/-! ## Recovery -/

/-- A cached coding shred leaves the cache and the index. -/
theorem Caching.dropCodingShred (h : Caching db b) {slot : Nat}
    (hs : b.justInsertedCodingShreds[shredKey slot i]? = some s) :
    Caching db (b.dropCodingShred slot (b.indexEntry slot) i) := by
  have hfresh := (h.cached slot i s hs).fresh
  unfold Batch.dropCodingShred
  constructor
  case coding =>
    intro slot' i'
    rw [indexEntry_setIndexEntry]
    change _ ↔ _ ∨ (b.justInsertedCodingShreds.erase (shredKey slot i))[shredKey slot' i']? ≠ none
    rw [getElem?_erase_shredKey]
    by_cases hslot : slot' = slot
    · rw [if_pos hslot]
      rw [mem_setPresent_false, h.coding, hslot]
      by_cases hi : i' = i
      · simp [hi, hfresh]
      · simp [hi]
    · rw [if_neg hslot, if_neg fun heq => hslot heq.1]
      exact h.coding slot' i'
  case cached =>
    intro slot' i' s' hs'
    change (b.justInsertedCodingShreds.erase (shredKey slot i))[shredKey slot' i']? = some s' at hs'
    rw [getElem?_erase_shredKey] at hs'
    split at hs'
    · cases hs'
    · exact h.cached slot' i' s' hs'
  case sets => exact fun key hkey => setIndexEntry_ne_none _ _ (h.sets key hkey)
  case noCode => exact h.noCode

theorem Pending.dropCodingShred (h : Pending db play log b new) (slot i : Nat) :
    Pending db play log (b.dropCodingShred slot (b.indexEntry slot) i) new :=
  (h.caches _ b.justInsertedDataShreds b.erasureMetas).setIndexEntry rfl (h.indexSlot slot) id

/-- What holds while shreds are gathered for recovery. -/
structure Gathering (db : Blockstore) (play : Shred → Prop) (log new shreds : List Shred)
    (b : Batch) : Prop where
  pending : Pending db play log b new
  caching : Caching db b
  sources : Sources shreds b

/-- Stored buffers parse, so reading them back does not abort. -/
theorem parseStored_returns {payload : Option (List UInt8)}
    (h : ∀ bytes ∈ payload, ∃ s, Shred.newFromSerializedShred bytes = .ok s) :
    Returns (parseStored payload)
      (fun r => ∀ s ∈ r, ∃ bytes ∈ payload, Shred.newFromSerializedShred bytes = .ok s)
        fun _ => False := by
  cases payload with
  | none => exact fun s hs => by cases hs
  | some bytes =>
    obtain ⟨s, hs⟩ := h bytes rfl
    unfold parseStored
    dsimp only
    rw [hs]
    intro s' hs'
    cases hs'
    exact ⟨bytes, rfl, hs⟩

theorem Committed.dataParsed (hdb : Committed db log) {payload : List UInt8}
    (h : db.dataShreds[shredKey slot i]? = some payload) :
    ∃ s, Shred.newFromSerializedShred payload = .ok s := by
  rw [hdb.stored, map_eq_some_iff] at h
  obtain ⟨s, hs, rfl⟩ := h
  exact ⟨s, (hdb.parsed s (mem_slotLog.mp (mem_of_find?_eq_some hs)).1).parse⟩

section Gather

variable {acc : Batch × List Shred}

/-- A gathered state and the shreds found so far. -/
def Gathered (db : Blockstore) (play : Shred → Prop) (log new shreds : List Shred)
    (acc : Batch × List Shred) : Prop :=
  Gathering db play log new shreds acc.1 ∧ ∀ s ∈ acc.2, Available db shreds s

theorem Gathered.append (h : Gathered db play log new shreds acc) {b' : Batch}
    (hb : Gathering db play log new shreds b')
    {found : List Shred} (hfound : ∀ s ∈ found, Available db shreds s) :
    Gathered db play log new shreds (b', acc.2 ++ found) := by
  exact ⟨hb, forall_mem_append.mpr ⟨h.2, hfound⟩⟩

section

variable (hdb : Committed db log)
include hdb

theorem recoveryDataShred_returns (h : Gathered db play log new shreds acc) (slot : Nat)
    (dataIndex : ExtTreeSet Nat) (i : Nat) :
    Returns (recoveryDataShred slot dataIndex acc i) (Gathered db play log new shreds)
      fun _ => False := by
  obtain ⟨b, found⟩ := acc
  unfold recoveryDataShred
  dsimp only
  split
  · cases hcached : b.justInsertedDataShreds[shredKey slot i]? with
    | some =>
      refine h.append ⟨h.1.pending.caches b.justInsertedCodingShreds
        (b.justInsertedDataShreds.erase (shredKey slot i)) b.erasureMetas, ?_, ?_,
          h.1.sources.coding⟩ ?_
      · exact ⟨h.1.caching.coding, h.1.caching.cached, h.1.caching.sets, h.1.caching.noCode⟩
      · intro key s hs
        exact h.1.sources.data key s (getElem?_of_erase hs)
      · intro s hs
        rw [mem_singleton.mp hs]
        exact .inl (h.1.sources.data _ _ hcached)
    | none =>
      have hdb_eq : b.db = db := h.1.pending.db_eq
      rw [hdb_eq]
      refine (parseStored_returns fun bytes hbytes => hdb.dataParsed hbytes).bind fun r hr => ?_
      refine h.append h.1 fun s hs => ?_
      obtain ⟨bytes, hbytes, hparse⟩ := hr s (mem_toList.mp hs)
      exact .inr ⟨_, bytes, .inl hbytes, hparse⟩
  · exact h

theorem recoveryCodingShred_returns (h : Gathered db play log new shreds acc) (slot : Nat)
    (i : Nat) :
    Returns (recoveryCodingShred slot acc i) (Gathered db play log new shreds) fun _ => False := by
  obtain ⟨b, found⟩ := acc
  unfold recoveryCodingShred
  dsimp only
  cases hcached : b.justInsertedCodingShreds[shredKey slot i]? with
  | some =>
    refine h.append ⟨h.1.pending.dropCodingShred slot i, h.1.caching.dropCodingShred hcached,
      h.1.sources.data, ?_⟩ ?_
    · intro key s hs
      exact h.1.sources.coding key s (getElem?_of_erase hs)
    · intro s hs
      rw [mem_singleton.mp hs]
      exact .inl (h.1.sources.coding _ _ hcached)
  | none =>
    dsimp only
    split
    · have hdb_eq : b.db = db := h.1.pending.db_eq
      rw [hdb_eq]
      refine (parseStored_returns fun bytes hbytes => hdb.codeParsed _ _ _ hbytes).bind
        fun r hr => ?_
      refine h.append h.1 fun s hs => ?_
      obtain ⟨bytes, hbytes, hparse⟩ := hr s (mem_toList.mp hs)
      exact .inr ⟨_, bytes, .inr hbytes, hparse⟩
    · exact h

/-- What the coder can make of shreds that a call can find. -/
def Recovered (coder : ReedSolomon) (db : Blockstore) (shreds : List Shred) (t : Shred) : Prop :=
  ∃ available numData numCoding firstIndex firstCodeIndex slot result,
    (∀ s ∈ available, Available db shreds s) ∧
    Shredder.tryRecovery coder available numData numCoding firstIndex firstCodeIndex slot =
      .ok result ∧ t ∈ result

omit hdb in
theorem Recovered.parsed {coder : ReedSolomon} (h : Recovered coder db shreds t) : t.Parsed := by
  obtain ⟨available, numData, numCoding, firstIndex, firstCodeIndex, slot, result, -,
    hresult, ht⟩ := h
  exact Shredder.tryRecovery_parsed hresult t ht

theorem recoverShreds_returns (h : Gathering db play log new shreds b)
    (slot setIndex : Nat) (index : Index) (erasureMeta : ErasureMeta) :
    Returns (recoverShreds env b slot setIndex index erasureMeta)
      (fun r => Gathering db play log new shreds r.1 ∧ ∀ t ∈ r.2, Recovered env.coder db shreds t)
        fun _ => False := by
  have hstart : Gathered db play log new shreds (b, []) := ⟨h, fun s hs => absurd hs not_mem_nil⟩
  refine (Returns.foldlM_inv hstart fun i _ acc hacc =>
    recoveryDataShred_returns hdb hacc slot _ i).bind ?_
  intro r hr
  refine (Returns.foldlM_inv hr fun i _ acc hacc =>
    recoveryCodingShred_returns hdb hacc slot i).bind ?_
  intro r hr
  have hnopanic :=
    Shredder.tryRecovery_noPanic env.coder r.2 erasureMeta.config.numData
      erasureMeta.config.numCoding
    setIndex erasureMeta.firstCodingIndex slot
  split
  · rename_i result hresult
    exact ⟨hr.1, fun t ht => ⟨r.2, _, _, _, _, _, result, hr.2, hresult, ht⟩⟩
  · exact ⟨hr.1, fun t ht => absurd ht not_mem_nil⟩
  · rename_i e hresult
    exact hnopanic e hresult

omit hdb in
theorem Gathering.dropSavedCodingShred (h : Gathering db play log new shreds b) (slot i : Nat) :
    Gathering db play log new shreds (dropSavedCodingShred slot b i) := by
  unfold Panoptes.Ledger.dropSavedCodingShred
  split
  · rename_i hcontains
    rw [ExtTreeMap.contains_iff_mem, ← ExtTreeMap.isSome_getElem?_iff_mem] at hcontains
    obtain ⟨s, hs⟩ := isSome_iff_exists.mp hcontains
    refine ⟨h.pending.dropCodingShred slot i, h.caching.dropCodingShred hs, h.sources.data,
      fun key s' hs' => ?_⟩
    exact h.sources.coding key s' (getElem?_of_erase hs')
  · exact h

theorem recoverSet_returns
    (h : Gathering db play log new shreds acc.1 ∧ ∀ t ∈ acc.2, Recovered env.coder db shreds t)
    (key : ShredKey) : Returns (recoverSet env acc key)
      (fun r => Gathering db play log new shreds r.1 ∧ ∀ t ∈ r.2, Recovered env.coder db shreds t)
        fun _ => False := by
  unfold recoverSet
  dsimp only
  split
  · exact h
  · rename_i erasureMeta hmeta
    have hentry := h.1.caching.sets key (by rw [hmeta]; exact some_ne_none _)
    obtain ⟨entry, hentry⟩ := ne_none_iff_exists'.mp hentry
    rw [hentry, expect_some, ok_bind]
    split
    · exact (recoverShreds_returns env hdb h.1 _ _ _ _).bind fun r hr =>
        ⟨hr.1, forall_mem_append.mpr ⟨h.2, hr.2⟩⟩
    · refine ⟨?_, h.2⟩
      refine List.foldlRecOn _ _ h.1 fun b' hb' i _ => ?_
      exact hb'.dropSavedCodingShred _ i
    · exact h

/-- **Recovery** keeps the invariants, whatever the sets and the order they are visited in. -/
theorem tryShredRecovery_returns (h : Gathering db play log new shreds b) :
    Returns (tryShredRecovery env b)
      (fun r => Gathering db play log new shreds r.1 ∧ ∀ t ∈ r.2, Recovered env.coder db shreds t)
        fun _ => False := by
  have hstart : Gathering db play log new shreds (b, ([] : List Shred)).1 ∧
      ∀ t ∈ (b, ([] : List Shred)).2, Recovered env.coder db shreds t :=
        ⟨h, fun t ht => absurd ht not_mem_nil⟩
  exact Returns.foldlM_inv hstart fun key _ acc hacc => recoverSet_returns env hdb hacc key

end

end Gather

/-! ## The shreds of a call -/

/-- A data shred that a call may insert: received, or recovered and signed by the slot's leader. -/
def InPlay (db : Blockstore) (shreds : List Shred) (t : Shred) : Prop :=
  (t ∈ shreds ∧ t.isData) ∨ ∃ leaderAt leader, env.leaderSchedule = some leaderAt ∧
    leaderAt t.slot = some leader ∧
    t.verify env.checkSignature leader ∧ Recovered env.coder db shreds t

/-- A data shred of a slot that `verify_shred_slots` can accept. -/
structure Placeable (db : Blockstore) (shreds : List Shred) (t : Shred) : Prop where
  inPlay : InPlay env db shreds t
  accepts : Accepts env db (InPlay env db shreds) t.slot

/-- Two shreds conflict that the call can place. -/
def Conflicting (db : Blockstore) (shreds : List Shred) : Prop :=
  ∃ s t, Placeable env db shreds s ∧ Placeable env db shreds t ∧ Conflict db s t

section Call

variable {env : InsertEnv} {p : Progress}

/-- What holds after any number of received shreds. -/
def Receiving (env : InsertEnv) (db : Blockstore) (log shreds : List Shred) (b : Batch) : Prop :=
  ∃ new, (∀ s ∈ new, Placeable env db shreds s) ∧
    Gathering db (InPlay env db shreds) log new shreds b

section

variable (hshred : InPlay env db shreds shred) (hnew : ∀ s ∈ new, Placeable env db shreds s)
include hshred hnew

theorem conflicting_of_new
    (h : ∃ u ∈ new, Conflict db u shred ∨ Conflict db shred u) :
    Conflicting env db shreds := by
  obtain ⟨u, hu, h | h⟩ := h
  · exact ⟨u, shred, hnew u hu, ⟨hshred, h.slot ▸ (hnew u hu).accepts⟩, h⟩
  · exact ⟨shred, u, ⟨hshred, h.slot ▸ (hnew u hu).accepts⟩, hnew u hu, h⟩

theorem placeable_of_step {new' : List Shred}
    (h : new' = new ∨ new' = new ++ [shred] ∧ Accepts env db (InPlay env db shreds) shred.slot) :
    ∀ s ∈ new', Placeable env db shreds s := by
  rcases h with rfl | ⟨rfl, haccepts⟩
  · exact hnew
  · exact forall_mem_concat.mpr ⟨hnew, hshred, haccepts⟩

end

section

variable (hdb : Committed db log)
include hdb

theorem insertShred_returns (h : Receiving env db log shreds p.batch) {x : Shred × Nat}
    (hmem : x.1 ∈ shreds) (hparsed : x.1.Parsed) :
    Returns (insertShred env false p x) (fun p' => Receiving env db log shreds p'.batch)
      fun _ => Conflicting env db shreds := by
  obtain ⟨new, hnew, hgathering⟩ := h
  unfold insertShred
  by_cases hdata : x.1.isData
  · have hplay : InPlay env db shreds x.1 := .inl ⟨hmem, hdata⟩
    rw [if_pos hdata]
    refine ((checkInsertDataShred_returns env hdb hgathering.pending hgathering.caching hplay
      hparsed).imp_error fun _ => conflicting_of_new hplay hnew).bind ?_
    rintro ⟨b', result⟩ ⟨⟨new', hstep, hpending⟩, hcaching, hsources⟩
    have hreceiving : Receiving env db log shreds b' :=
      ⟨new', placeable_of_step hplay hnew hstep, hpending, hcaching,
        hsources shreds hmem hgathering.sources⟩
    cases result with
    | ok => exact hreceiving
    | error => exact hreceiving
  · have hcode : x.1.isCode := hparsed.isData_or_isCode.resolve_left hdata
    rw [if_neg hdata, if_pos hcode]
    refine ((checkCacheCodingShred_returns env hdb hgathering.pending hgathering.caching
      hparsed).imp_error
      fun _ => False.elim).bind fun r hr => ?_
    exact ⟨new, hnew, hr.1, hr.2.1, hr.2.2 shreds hmem hgathering.sources⟩

theorem receiving_start : Receiving env db log shreds (start db) := by
  refine ⟨[], fun s hs => absurd hs not_mem_nil, ?_, ?_, ?_⟩
  · constructor
    case db_eq => rfl
    case parsed => exact fun s hs => absurd hs not_mem_nil
    case writes => rfl
    case book =>
      intro slot
      rw [append_nil]
      exact hdb.book slot
    case indexInserted => exact fun s hs => absurd hs not_mem_nil
    case metaInserted => exact fun s hs => absurd hs not_mem_nil
    case entries =>
      intro slot e he
      cases he
    case parents =>
      intro slot e he
      cases he
    case indexSlot => exact hdb.indexSlot
  · constructor
    case coding =>
      intro slot i
      refine (hdb.coding slot i).trans ?_
      simp [start]
    case cached =>
      intro slot i s hs
      cases hs
    case sets => exact fun key hkey => absurd rfl hkey
    case noCode => rfl
  · refine ⟨fun key s hs => ?_, fun key s hs => ?_⟩ <;> cases hs

/-- What holds after any number of recovered shreds. -/
def Recovering (env : InsertEnv) (db : Blockstore) (log shreds : List Shred) (b : Batch) : Prop :=
  ∃ new, (∀ s ∈ new, Placeable env db shreds s) ∧ Pending db (InPlay env db shreds) log b new ∧
    Caching db b

theorem insertRecovered_returns (h : Recovering env db log shreds p.batch)
    {leaderAt : Nat → Option Pubkey} (hleader : env.leaderSchedule = some leaderAt)
    (ht : Recovered env.coder db shreds t) :
    Returns (insertRecovered env false leaderAt p t)
      (fun p' => Recovering env db log shreds p'.batch) fun _ => Conflicting env db shreds := by
  obtain ⟨new, hnew, hpending, hcaching⟩ := h
  unfold insertRecovered
  cases hslot : leaderAt t.slot with
  | none => exact ⟨new, hnew, hpending, hcaching⟩
  | some leader =>
    dsimp only
    split
    · rename_i hverify
      have hplay : InPlay env db shreds t := .inr ⟨leaderAt, leader, hleader, hslot, hverify, ht⟩
      refine ((checkInsertDataShred_returns env hdb hpending hcaching hplay ht.parsed).imp_error
        fun _ => conflicting_of_new hplay hnew).bind ?_
      rintro ⟨b', result⟩ ⟨⟨new', hstep, hpending'⟩, hcaching', -⟩
      have hrecovering : Recovering env db log shreds b' :=
        ⟨new', placeable_of_step hplay hnew hstep, hpending', hcaching'⟩
      cases result with
      | ok => exact hrecovering
      | error => exact hrecovering
    · exact ⟨new, hnew, hpending, hcaching⟩

theorem recoverAndInsert_returns (h : Receiving env db log shreds p.batch) :
    Returns (recoverAndInsert env false p) (fun p' => Recovering env db log shreds p'.batch)
      fun _ => Conflicting env db shreds := by
  obtain ⟨new, hnew, hgathering⟩ := h
  unfold recoverAndInsert
  cases hleader : env.leaderSchedule with
  | none => exact ⟨new, hnew, hgathering.pending, hgathering.caching⟩
  | some =>
    refine ((tryShredRecovery_returns env hdb hgathering).imp_error fun _ => False.elim).bind
      fun r hr => ?_
    have hstart : Recovering env db log shreds { p with batch := r.1 }.batch :=
      ⟨new, hnew, hr.1.pending, hr.1.caching⟩
    exact Returns.foldlM_inv hstart
      fun t ht p' hp' => insertRecovered_returns hdb hp' hleader (hr.2 t ht)

end

end Call

end Panoptes.Ledger
