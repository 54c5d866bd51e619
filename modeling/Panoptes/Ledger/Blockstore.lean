import Panoptes.Ledger.SlotMeta

/-!
# Inserting shreds into the blockstore

`ledger/src/blockstore.rs`, `insert_shreds` and what it calls.  A call reads the database, keeps
working copies of the metadata and indexes it touches, recovers missing data shreds from the erasure
sets it touched, links the new slots to their parents and writes everything in one batch.

Database calls succeed.  The hash maps of a call visit their keys in some order, which is a
parameter of the call, as are the clock, the leader schedule, the check of signatures and the
erasure coder.  Metrics and the channels that announce completed slots are left out.

* `checkInsertDataShred`, `checkCacheCodingShred` — one received shred.
* `tryShredRecovery` — the erasure sets.
* `handleChaining`, `traverseChildren` — the tree of slots.
* `insertShreds` — the call.
-/

set_option autoImplicit false

namespace Panoptes.Ledger

open Lib Sdk
open Std (ExtTreeMap ExtTreeSet)

/-- The key of a shred in its column: slot and index. -/
abbrev ShredKey := Nat ×ₗ Nat

def shredKey (slot index : Nat) : ShredKey := toLex (slot, index)

@[simp] theorem shredKey_inj {slot index slot' index' : Nat} :
    shredKey slot index = shredKey slot' index' ↔ slot = slot' ∧ index = index' := by
  unfold shredKey
  rw [toLex_inj, Prod.mk.injEq]

theorem getElem?_insert_shredKey {β : Type} (m : ExtTreeMap ShredKey β)
    (slot index slot' index' : Nat) (v : β) :
    (m.insert (shredKey slot index) v)[shredKey slot' index']? =
      if slot' = slot ∧ index' = index then some v else m[shredKey slot' index']? := by
  rw [getElem?_insert_ite]
  simp only [shredKey_inj]

theorem getElem?_erase_shredKey {β : Type} (m : ExtTreeMap ShredKey β)
    (slot index slot' index' : Nat) : (m.erase (shredKey slot index))[shredKey slot' index']? =
      if slot' = slot ∧ index' = index then none else m[shredKey slot' index']? := by
  rw [getElem?_erase_ite]
  simp only [shredKey_inj]

/-- The columns of the database that inserting shreds reads or writes. -/
structure Blockstore where
  slotMetas : ExtTreeMap Nat SlotMeta
  indexes : ExtTreeMap Nat Index
  dataShreds : ExtTreeMap ShredKey (List UInt8)
  codeShreds : ExtTreeMap ShredKey (List UInt8)
  erasureMetas : ExtTreeMap ShredKey ErasureMeta
  orphans : ExtTreeSet Nat
  duplicateSlots : ExtTreeMap Nat (List UInt8 × List UInt8)

def Blockstore.empty : Blockstore :=
  { slotMetas := ∅, indexes := ∅, dataShreds := ∅, codeShreds := ∅, erasureMetas := ∅, orphans := ∅,
    duplicateSlots := ∅ }

/-- The operations of a write batch on each column, in order; in the orphans column `true` is a
put. -/
structure WriteBatch where
  dataShreds : List (ShredKey × List UInt8)
  codeShreds : List (ShredKey × List UInt8)
  slotMetas : List (Nat × SlotMeta)
  erasureMetas : List (ShredKey × ErasureMeta)
  indexes : List (Nat × Index)
  orphans : List (Nat × Bool)

def WriteBatch.empty : WriteBatch :=
  { dataShreds := [], codeShreds := [], slotMetas := [], erasureMetas := [],
    indexes := [], orphans := [] }

def setOrphans (orphans : ExtTreeSet Nat) (ops : List (Nat × Bool)) : ExtTreeSet Nat :=
  ops.foldl (fun orphans op => setPresent orphans op.1 op.2) orphans

variable (db : Blockstore)

def Blockstore.write (w : WriteBatch) : Blockstore :=
  { db with
    slotMetas := putAll db.slotMetas w.slotMetas
    indexes := putAll db.indexes w.indexes
    dataShreds := putAll db.dataShreds w.dataShreds
    codeShreds := putAll db.codeShreds w.codeShreds
    erasureMetas := putAll db.erasureMetas w.erasureMetas
    orphans := setOrphans db.orphans w.orphans }

structure IndexMetaWorkingSetEntry where
  index : Index
  didInsertOccur : Bool

structure SlotMetaWorkingSetEntry where
  newSlotMeta : SlotMeta
  oldSlotMeta : Option SlotMeta
  didInsertOccur : Bool

inductive InsertDataShredError where
  | exists
  | invalidShred
  deriving DecidableEq, Repr

structure CompletedDataSetInfo where
  slot : Nat
  startIndex : Nat
  endIndex : Nat
  deriving DecidableEq, Repr

/-- What a call reads beside the database. -/
structure InsertEnv where
  /-- `*self.last_root.read()`. -/
  lastRoot : Nat
  /-- `leader_schedule_cache.slot_leader_at(slot, None)`, if the call has a leader schedule. -/
  leaderSchedule : Option (Nat → Option Pubkey)
  /-- Whether a signature is one of the key's for the bytes. -/
  checkSignature : Pubkey → Signature → List UInt8 → Bool
  /-- `timestamp()` when the shred at this slot and index is inserted. -/
  timestamp : Nat → Nat → Nat
  coder : ReedSolomon
  erasureMetaOrder : VisitOrder ShredKey
  codingShredOrder : VisitOrder ShredKey
  slotOrder : VisitOrder Nat

/-- The local variables of a call.  Only the column of duplicate slots is written before the batch,
so it stands apart from the database that the call reads. -/
structure Batch where
  db : Blockstore
  duplicateSlots : ExtTreeMap Nat (List UInt8 × List UInt8)
  justInsertedCodingShreds : ExtTreeMap ShredKey Shred
  justInsertedDataShreds : ExtTreeMap ShredKey Shred
  erasureMetas : ExtTreeMap ShredKey ErasureMeta
  slotMetaWorkingSet : ExtTreeMap Nat SlotMetaWorkingSetEntry
  indexWorkingSet : ExtTreeMap Nat IndexMetaWorkingSetEntry
  writeBatch : WriteBatch

def Batch.start : Batch :=
  { db
    duplicateSlots := db.duplicateSlots
    justInsertedCodingShreds := ∅
    justInsertedDataShreds := ∅
    erasureMetas := ∅
    slotMetaWorkingSet := ∅
    indexWorkingSet := ∅
    writeBatch := .empty }

namespace Batch

variable (b : Batch)

section

variable (slot parentSlot : Nat)

/-- The entry that `get_index_meta_entry` returns. -/
def indexEntry : IndexMetaWorkingSetEntry :=
  (b.indexWorkingSet[slot]?).getD
    { index := (b.db.indexes[slot]?).getD (Index.new slot), didInsertOccur := false }

/-- The entry that `get_slot_meta_entry` returns. -/
def slotMetaEntry : SlotMetaWorkingSetEntry :=
  match b.slotMetaWorkingSet[slot]? with
  | some entry => entry
  | none =>
    match b.db.slotMetas[slot]? with
    | some m =>
      { newSlotMeta := if m.isOrphan then { m with parentSlot } else m
        oldSlotMeta := some m
        didInsertOccur := false }
    | none =>
      { newSlotMeta := SlotMeta.new slot parentSlot, oldSlotMeta := none, didInsertOccur := false }

def setIndexEntry (entry : IndexMetaWorkingSetEntry) : Batch :=
  { b with indexWorkingSet := b.indexWorkingSet.insert slot entry }

/-- An entry of the slot meta working set, replaced. -/
def setSlotMetaEntry (entry : SlotMetaWorkingSetEntry) : Batch :=
  { b with slotMetaWorkingSet := b.slotMetaWorkingSet.insert slot entry }

def getEntries : Batch :=
  (b.setIndexEntry slot (b.indexEntry slot)).setSlotMetaEntry slot (b.slotMetaEntry slot parentSlot)

/-- `store_duplicate_if_not_existing(slot, shred1, shred2)`: a write past the batch. -/
def storeDuplicateIfNotExisting (shred1 shred2 : List UInt8) : Batch :=
  if b.duplicateSlots.contains slot then b
  else { b with duplicateSlots := b.duplicateSlots.insert slot (shred1, shred2) }

end

end Batch

/-! ## Data shreds -/

def isValidWriteToSlot0 (slotToWrite parentSlot lastRoot : Nat) : Bool :=
  slotToWrite == 0 && lastRoot == 0 && parentSlot == 0

def verifyShredSlots (slot parentSlot lastRoot : Nat) : Bool :=
  isValidWriteToSlot0 slot parentSlot lastRoot ||
    (decide (parentSlot < slot) && decide (lastRoot ≤ parentSlot))

variable (env : InsertEnv)

def shouldInsertDataShred (b : Batch) (shred : Shred) (m : SlotMeta) :
    Except Panic (Batch × Bool) :=
  if m.lastIndex ≤ shred.index then do
    let endingShred ← unwrap b.db.dataShreds[shredKey shred.slot m.lastIndex]?
    return (b.storeDuplicateIfNotExisting shred.slot endingShred shred.payload, false)
  else if shred.lastInSlot ∧ shred.index < m.received then do
    let endingShred ← unwrap b.db.dataShreds[shredKey shred.slot (m.received - 1)]?
    return (b.storeDuplicateIfNotExisting shred.slot endingShred shred.payload, false)
  else .ok (b, verifyShredSlots shred.slot m.parentSlot env.lastRoot)

/-- The checks of `check_insert_data_shred` that a trusted caller skips. -/
def checkDataShred (isTrusted : Bool) (b : Batch) (shred : Shred) (m : SlotMeta)
    (dataIndex : ExtTreeSet Nat) : Except Panic (Batch × Option InsertDataShredError) :=
  if isTrusted then .ok (b, none)
  else if isDataShredPresent shred m dataIndex then .ok (b, some .exists)
  else do
    let r ← shouldInsertDataShred env b shred m
    return (r.1, if r.2 then none else some .invalidShred)

variable (b : Batch)

/-- The write of a data shred, its place in the cache, and the erasure set it belongs to. -/
def Batch.recordData (shred : Shred) : Batch :=
  let setKey := shredKey shred.slot shred.fecSetIndex
  { b with
    writeBatch := { b.writeBatch with
      dataShreds := b.writeBatch.dataShreds ++ [(shredKey shred.slot shred.index, shred.payload)] }
    justInsertedDataShreds := b.justInsertedDataShreds.insert
      (shredKey shred.slot shred.index) shred
    erasureMetas :=
      if b.erasureMetas.contains setKey then b.erasureMetas
      else match b.db.erasureMetas[setKey]? with
        | some m => b.erasureMetas.insert setKey m
        | none => b.erasureMetas }

/-- The working sets after `insert_data_shred` returned. -/
def Batch.insertedData (shred : Shred) (indexEntry : IndexMetaWorkingSetEntry)
    (slotMetaEntry : SlotMetaWorkingSetEntry) (r : DataInserted) : Batch :=
  ((b.recordData shred).setIndexEntry shred.slot
    { index := { indexEntry.index with data := r.dataIndex },
      didInsertOccur := true }).setSlotMetaEntry shred.slot
    { slotMetaEntry with newSlotMeta := r.slotMeta, didInsertOccur := true }

/-- `check_insert_data_shred(..)`; `insert_shreds` does nothing with duplicates. -/
def checkInsertDataShred (isTrusted : Bool) (b : Batch) (shred : Shred) :
    Except Panic (Batch × Except InsertDataShredError (List (Nat × Nat))) := do
  let indexEntry := b.indexEntry shred.slot
  let slotMetaEntry := b.slotMetaEntry shred.slot shred.parent
  let r ← checkDataShred env isTrusted (b.getEntries shred.slot shred.parent) shred
    slotMetaEntry.newSlotMeta
    indexEntry.index.data
  match r.2 with
  | some e => return (r.1, .error e)
  | none =>
    let inserted ← insertDataShred slotMetaEntry.newSlotMeta indexEntry.index.data shred
      (env.timestamp shred.slot shred.index)
    return (r.1.insertedData shred indexEntry slotMetaEntry inserted,
      .ok inserted.newlyCompletedDataSets)

/-! ## Coding shreds -/

section

variable (shred : Shred)

def shouldInsertCodingShred (lastRoot : Nat) : Bool :=
  if shred.isData || decide (shred.index < shred.codingHeader.position.toNat) then false
  else
    !(shred.codingHeader.numCodingShreds.toNat == 0
      || decide (shred.codingHeader.numCodingShreds.toNat ≤ shred.codingHeader.position.toNat)
      || decide (U32 - 1 - shred.fecSetIndex < shred.codingHeader.numCodingShreds.toNat - 1)
      || decide (shred.slot ≤ lastRoot)
      || decide (8 * MAX_DATA_SHREDS_PER_FEC_BLOCK < shred.codingHeader.numCodingShreds.toNat))

def erasureMismatch (shred1 shred2 : Shred) : Bool :=
  shred1.codingHeader.numCodingShreds != shred2.codingHeader.numCodingShreds
    || shred1.codingHeader.numDataShreds != shred2.codingHeader.numDataShreds

/-- The loop of `find_conflicting_coding_shred`; an `unwrap` of an error aborts too. -/
def findConflicting (b : Batch) (shred : Shred) : List Nat → Except Panic (Option (List UInt8))
  | [] => .ok none
  | codingIndex :: rest =>
    match b.db.codeShreds[shredKey shred.slot codingIndex]? with
    | some shredData =>
      match Shred.newFromSerializedShred shredData with
      | .ok potential =>
        .ok (if erasureMismatch potential shred then some potential.payload else none)
      | .error (.error _) => .error .unwrapNone
      | .error (.panic e) => .error e
    | none =>
      match b.justInsertedCodingShreds[shredKey shred.slot codingIndex]? with
      | some potential =>
        .ok (if erasureMismatch potential shred then some potential.payload else none)
      | none => findConflicting b shred rest

def findConflictingCodingShred (erasureMeta : ErasureMeta) :
    Except Panic (Option (List UInt8)) :=
  findConflicting b shred (List.range' erasureMeta.firstCodingIndex erasureMeta.config.numCoding)

/-- The entry of `erasure_metas` for the set of a coding shred. -/
def Batch.erasureMeta (config : ErasureConfig) : ErasureMeta :=
  let setKey := shredKey shred.slot shred.fecSetIndex
  match b.erasureMetas[setKey]? with
  | some m => m
  | none => (b.db.erasureMetas[setKey]?).getD
      { setIndex := shred.fecSetIndex
        firstCodingIndex := wrapSub shred.index shred.codingHeader.position.toNat
        config }

/-- `just_received_coding_shreds.entry((slot, shred_index)).or_insert_with(|| shred)`. -/
def Batch.cacheCodingShred : Batch :=
  let key := shredKey shred.slot shred.index
  if b.justInsertedCodingShreds.contains key then b
  else { b with justInsertedCodingShreds := b.justInsertedCodingShreds.insert key shred }

def checkCacheCodingShred (isTrusted : Bool) (b : Batch) (shred : Shred) :
    Except Panic (Batch × Bool) :=
  let indexEntry := b.indexEntry shred.slot
  let b := b.setIndexEntry shred.slot indexEntry
  if !isTrusted &&
    (indexEntry.index.coding.contains shred.index || !shouldInsertCodingShred shred
      env.lastRoot) then
    .ok (b, false)
  else
    let config : ErasureConfig :=
      { numData := shred.codingHeader.numDataShreds.toNat,
        numCoding := shred.codingHeader.numCodingShreds.toNat }
    let erasureMeta := b.erasureMeta shred config
    let b :=
      { b with
        erasureMetas := b.erasureMetas.insert (shredKey shred.slot shred.fecSetIndex) erasureMeta }
    if config ≠ erasureMeta.config then do
      let conflicting ← findConflictingCodingShred b shred erasureMeta
      return (conflicting.elim b fun c => b.storeDuplicateIfNotExisting shred.slot c shred.payload,
        false)
    else
      .ok ((b.cacheCodingShred shred).setIndexEntry shred.slot { indexEntry with
        index := { indexEntry.index with
          coding := setPresent indexEntry.index.coding shred.index true } }, true)

def Batch.recordCoding : Batch :=
  { b with writeBatch := { b.writeBatch with
      codeShreds := b.writeBatch.codeShreds ++ [(shredKey shred.slot shred.index, shred.payload)] }
        }

def checkInsertCodingShred : Except Panic Batch := do
  let indexEntry := b.indexEntry shred.slot
  assert (shred.isCode ∧ shred.codingHeader.position.toNat ≤ shred.index)
  return (b.recordCoding shred).setIndexEntry shred.slot
    { index := { indexEntry.index with
      coding := setPresent indexEntry.index.coding shred.index true }
      didInsertOccur := true }

end

/-! ## Recovery -/

/-- A stored shred, parsed; a buffer that does not parse is skipped. -/
def parseStored (payload : Option (List UInt8)) : Except Panic (Option Shred) :=
  match payload with
  | none => .ok none
  | some payload =>
    match Shred.newFromSerializedShred payload with
    | .ok shred => .ok (some shred)
    | .error (.error _) => .ok none
    | .error (.panic e) => .error e

/-- One turn of `get_recovery_data_shreds`. -/
def recoveryDataShred (slot : Nat) (dataIndex : ExtTreeSet Nat)
    (acc : Batch × List Shred) (i : Nat) : Except Panic (Batch × List Shred) :=
  let b := acc.1
  if dataIndex.contains i then
    match b.justInsertedDataShreds[shredKey slot i]? with
    | some shred =>
      .ok ({ b with justInsertedDataShreds := b.justInsertedDataShreds.erase (shredKey slot i) },
        acc.2 ++ [shred])
    | none => do
      let shred ← parseStored b.db.dataShreds[shredKey slot i]?
      return (b, acc.2 ++ shred.toList)
  else .ok acc

/-- A cached coding shred is taken out of the cache and of the index, so that it is not
committed. -/
def Batch.dropCodingShred (slot : Nat) (entry : IndexMetaWorkingSetEntry) (i : Nat) : Batch :=
  { b with
    justInsertedCodingShreds := b.justInsertedCodingShreds.erase (shredKey slot i) }.setIndexEntry
      slot
    { entry with index := { entry.index with coding := setPresent entry.index.coding i false } }

/-- One turn of `get_recovery_coding_shreds`. -/
def recoveryCodingShred (slot : Nat) (acc : Batch × List Shred) (i : Nat) :
    Except Panic (Batch × List Shred) :=
  let b := acc.1
  let entry := b.indexEntry slot
  match b.justInsertedCodingShreds[shredKey slot i]? with
  | some shred => .ok (b.dropCodingShred slot entry i, acc.2 ++ [shred])
  | none =>
    if entry.index.coding.contains i then do
      let shred ← parseStored b.db.codeShreds[shredKey slot i]?
      return (b, acc.2 ++ shred.toList)
    else .ok acc

/-- `recover_shreds(..)`: the batch after the call, and the recovered shreds. -/
def recoverShreds (b : Batch) (slot setIndex : Nat) (index : Index) (erasureMeta : ErasureMeta) :
    Except Panic (Batch × List Shred) := do
  let r ← (List.range' setIndex erasureMeta.config.numData).foldlM
    (recoveryDataShred slot index.data) (b, [])
  let r ← (List.range' erasureMeta.firstCodingIndex erasureMeta.config.numCoding).foldlM
    (recoveryCodingShred slot) r
  match Shredder.tryRecovery env.coder r.2 erasureMeta.config.numData
    erasureMeta.config.numCoding setIndex
      erasureMeta.firstCodingIndex slot with
  | .ok result => return (r.1, result)
  | .error (.error _) => return (r.1, [])
  | .error (.panic e) => .error e

/-- One saved coding shred of a set whose data is complete. -/
def dropSavedCodingShred (slot : Nat) (b : Batch) (i : Nat) : Batch :=
  if b.justInsertedCodingShreds.contains (shredKey slot i) then
    b.dropCodingShred slot (b.indexEntry slot) i
  else b

def recoverSet (acc : Batch × List Shred) (key : ShredKey) : Except Panic (Batch × List Shred) := do
  let b := acc.1
  let slot := (ofLex key).1
  let setIndex := (ofLex key).2
  match b.erasureMetas[key]? with
  | none => return acc
  | some erasureMeta =>
    let entry ← expect "Index" b.indexWorkingSet[slot]?
    match erasureMeta.status entry.index with
    | .canRecover =>
      let r ← recoverShreds env b entry.index.slot setIndex entry.index erasureMeta
      return (r.1, acc.2 ++ r.2)
    | .dataFull =>
      return ((List.range' setIndex erasureMeta.config.numCoding).foldl
        (dropSavedCodingShred slot) b, acc.2)
    | .stillNeed _ => return acc

def tryShredRecovery (b : Batch) : Except Panic (Batch × List Shred) :=
  (env.erasureMetaOrder.visit b.erasureMetas.keys).foldlM (recoverSet env) (b, [])

/-! ## Chaining -/

/-- The local variables of `handle_chaining`.  A slot's metadata is shared by everyone who found it:
a change goes to the working set or, if it has no entry there, to `newChainedSlots`. -/
structure Chaining where
  workingSet : ExtTreeMap Nat SlotMetaWorkingSetEntry
  newChainedSlots : ExtTreeMap Nat SlotMeta
  orphans : List (Nat × Bool)

namespace Chaining

section

variable (c : Chaining) (slot : Nat)

/-- `find_slot_meta_in_cached_state(..)`. -/
def findCached : Option SlotMeta :=
  match c.workingSet[slot]? with
  | some entry => some entry.newSlotMeta
  | none => c.newChainedSlots[slot]?

def findElseCreate : SlotMeta × Chaining :=
  match c.findCached slot with
  | some m => (m, c)
  | none =>
    let m := (db.slotMetas[slot]?).getD (SlotMeta.newOrphan slot)
    (m, { c with newChainedSlots := c.newChainedSlots.insert slot m })

/-- A change of the metadata of a slot that was found. -/
def set (m : SlotMeta) : Chaining :=
  match c.workingSet[slot]? with
  | some entry => { c with workingSet := c.workingSet.insert slot { entry with newSlotMeta := m } }
  | none => { c with newChainedSlots := c.newChainedSlots.insert slot m }

end

end Chaining

section

variable (c : Chaining) (slot : Nat) (m : SlotMeta)

def isNewlyCompletedSlot (backup : Option SlotMeta) : Bool :=
  m.isFull && (backup.elim true fun old => m.consumed != old.consumed)

/-- The children of a slot, found or created, in order. -/
def findChildren (nextSlots : List Nat) : Chaining :=
  nextSlots.foldl (fun c slot => (c.findElseCreate db slot).2) c

/-- `traverse_children_mut` with the function that sets `is_connected`; the head of the list is the
top of the stack. -/
def traverseChildren (db : Blockstore) : Nat → Chaining → List Nat → Except Panic Chaining
  | _, c, [] => .ok c
  | 0, _, _ :: _ => .error .fuel
  | fuel + 1, c, slot :: stack =>
    let (m, c) := c.findElseCreate db slot
    let c := c.set slot { m with isConnected := true }
    -- The children of a slot that is not full are not explored.
    if m.isFull then
      traverseChildren db fuel (findChildren db c m.nextSlots) (m.nextSlots.reverse ++ stack)
    else traverseChildren db fuel c stack

/-- How many slots a traversal can meet. -/
def Chaining.numSlots : Nat :=
  db.slotMetas.size + c.workingSet.size + c.newChainedSlots.size

/-- A slot whose parent was not known before is linked to it. -/
def chainToParent : Except Panic Chaining :=
  let prevSlot := m.parentSlot
  -- `prev_slot_meta.borrow_mut()` while `meta` is borrowed
  if prevSlot = slot then .error (.explicit "already borrowed: BorrowMutError")
  else
    let (prev, c) := c.findElseCreate db prevSlot
    let c := c.set prevSlot { prev with nextSlots := prev.nextSlots ++ [slot] }
    let c := c.set slot { m with isConnected := prev.isConnected && prev.isFull }
    .ok (if prev.isOrphan then { c with orphans := c.orphans ++ [(prevSlot, true)] } else c)

def handleChainingForSlot : Except Panic Chaining := do
  let entry ← expect "Slot must exist in the working_set hashmap" c.workingSet[slot]?
  let m := entry.newSlotMeta
  let backup := entry.oldSlotMeta
  let wasOrphanSlot := backup.elim false SlotMeta.isOrphan
  let c ← if slot ≠ 0 ∧ (backup = none ∨ wasOrphanSlot) then chainToParent db c slot m else .ok c
  let c := if wasOrphanSlot then { c with orphans := c.orphans ++ [(slot, false)] } else c
  let m := (c.findElseCreate db slot).1
  if isNewlyCompletedSlot m backup && m.isConnected then
    traverseChildren db (c.numSlots db) c [slot]
  else .ok c

end

def handleChaining (b : Batch) : Except Panic Chaining :=
  let workingSet := b.slotMetaWorkingSet.filter fun _ entry => entry.didInsertOccur
  (env.slotOrder.visit workingSet.keys).foldlM (handleChainingForSlot b.db)
    { workingSet, newChainedSlots := ∅, orphans := [] }

/-! ## The call -/

section

variable (isTrusted : Bool)

/-- `commit_slot_meta_working_set(..)`: the metadata that changed. -/
def commitSlotMetaWorkingSet (workingSet : ExtTreeMap Nat SlotMetaWorkingSetEntry) :
    Except Panic (List (Nat × SlotMeta)) :=
  workingSet.toList.foldlM (fun puts (slot, entry) => do
    assert (entry.didInsertOccur = true)
    return if some entry.newSlotMeta = entry.oldSlotMeta then puts
      else puts ++ [(slot, entry.newSlotMeta)]) []

def commit (c : Chaining) : Except Panic WriteBatch := do
  let slotMetas ← commitSlotMetaWorkingSet c.workingSet
  return { b.writeBatch with
    orphans := c.orphans
    slotMetas := c.newChainedSlots.toList ++ slotMetas
    erasureMetas := b.erasureMetas.toList
    indexes := (b.indexWorkingSet.toList.filter fun e => e.2.didInsertOccur).map
      fun e => (e.1, e.2.index) }

/-- The batch while its shreds are inserted, and what the call will return. -/
structure Progress where
  batch : Batch
  newlyCompletedDataSets : List CompletedDataSetInfo
  insertedIndices : List Nat

variable (p : Progress)

/-- The data sets of a slot that a shred completed. -/
def completedDataSets (slot : Nat) (ranges : List (Nat × Nat)) : List CompletedDataSetInfo :=
  ranges.map fun (startIndex, endIndex) => { slot, startIndex, endIndex }

/-- One received shred; `i` is its place in the list. -/
def insertShred (x : Shred × Nat) : Except Panic Progress :=
  if x.1.isData then do
    let r ← checkInsertDataShred env isTrusted p.batch x.1
    match r.2 with
    | .ok ranges => return {
        batch := r.1
        newlyCompletedDataSets := p.newlyCompletedDataSets ++ completedDataSets x.1.slot ranges
        insertedIndices := p.insertedIndices ++ [x.2] }
    | .error _ => return { p with batch := r.1 }
  else if x.1.isCode then do
    let r ← checkCacheCodingShred env isTrusted p.batch x.1
    return { p with batch := r.1 }
  else .error (.explicit "There should be no other case")

def insertRecovered (leaderAt : Nat → Option Pubkey) (p : Progress)
    (shred : Shred) : Except Panic Progress :=
  match leaderAt shred.slot with
  | none => .ok p
  | some leader =>
    if shred.verify env.checkSignature leader then do
      let r ← checkInsertDataShred env isTrusted p.batch shred
      match r.2 with
      | .ok ranges => return { p with
          batch := r.1
          newlyCompletedDataSets := p.newlyCompletedDataSets ++
            completedDataSets shred.slot ranges }
      | .error _ => return { p with batch := r.1 }
    else .ok p

/-- The recovery of a call that has a leader schedule. -/
def recoverAndInsert : Except Panic Progress :=
  match env.leaderSchedule with
  | none => .ok p
  | some leaderAt => do
    let r ← tryShredRecovery env p.batch
    r.2.foldlM (insertRecovered env isTrusted leaderAt) { p with batch := r.1 }

/-- The coding shreds that are still cached are inserted. -/
def insertCodingShreds (b : Batch) : Except Panic Batch :=
  (env.codingShredOrder.visit b.justInsertedCodingShreds.keys).foldlM
    (fun b' key => (b.justInsertedCodingShreds[key]?).elim (.ok b') (checkInsertCodingShred b')) b

/-- What a call leaves: the database before the batch, the batch, and the values it returns. -/
structure Insertion where
  db : Blockstore
  writeBatch : WriteBatch
  newlyCompletedDataSets : List CompletedDataSetInfo
  insertedIndices : List Nat

/-- `insert_shreds(shreds, leader_schedule, is_trusted)` up to the write. -/
def insertShreds (db : Blockstore) (shreds : List Shred) : Except Panic Insertion := do
  let p ← shreds.zipIdx.foldlM (insertShred env isTrusted)
    { batch := Batch.start db, newlyCompletedDataSets := [], insertedIndices := [] }
  let p ← recoverAndInsert env isTrusted p
  let b ← insertCodingShreds env p.batch
  let c ← handleChaining env b
  let writeBatch ← commit b c
  return {
    db := { b.db with duplicateSlots := b.duplicateSlots }
    writeBatch
    newlyCompletedDataSets := p.newlyCompletedDataSets
    insertedIndices := p.insertedIndices }

end

def Insertion.result (r : Insertion) : Blockstore := r.db.write r.writeBatch

end Panoptes.Ledger
