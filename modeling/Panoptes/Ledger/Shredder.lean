import Panoptes.Ledger.Shred

/-!
# Shredding and recovery

`ledger/src/shred.rs` (`Shredder`) and `ledger/src/erasure.rs`: entries are serialized, cut into
data shreds, and each run of at most `MAX_DATA_SHREDS_PER_FEC_BLOCK` data shreds gets coding shreds
from a Reed-Solomon coder.  `tryRecovery` puts the shreds that arrived at their places, lets the
coder fill the others and parses what it filled.

The coder and the signer are third-party code and stand as parameters.

* `entriesToShreds`, `generateCodingShreds` — the sender.
* `tryRecovery`, `deshred` — the receiver.

Principal result: `tryRecovery_noPanic`: recovery never aborts, whatever the shreds and the numbers
in their headers.
-/

set_option autoImplicit false

namespace Panoptes.Ledger

open Lib Sdk List

/-- The errors of the erasure coder that the code itself returns, and those it passes on. -/
inductive ErasureError where
  | tooFewShardsPresent
  | tooFewDataShards
  | incorrectShardSize
  | session (code : Nat)
  deriving DecidableEq, Repr

/-- A Reed-Solomon coder.  It writes into the blocks it is given, so they keep their number and
their lengths. -/
structure ReedSolomon where
  /-- `ReedSolomon::new(data_shards, parity_shards)`. -/
  new : Nat → Nat → Except ErasureError Unit
  /-- `encode_sep(data, parity)`: the parity blocks after the call. -/
  encodeSep : Nat → Nat → List (List UInt8) → List (List UInt8) →
    Except ErasureError (List (List UInt8))
  /-- `reconstruct_data(shards)`: the blocks after the call. -/
  reconstructData : Nat → Nat → List (List UInt8 × Bool) → Except ErasureError (List (List UInt8))
  encodeSep_lengths : ∀ numData numCoding data parity parity',
    encodeSep numData numCoding data parity = .ok parity' →
    parity'.map List.length = parity.map List.length
  reconstructData_lengths : ∀ numData numCoding blocks blocks',
    reconstructData numData numCoding blocks = .ok blocks' →
    blocks'.map List.length = blocks.map fun b => b.1.length

/-- What the code asks of the `f32` rate. -/
structure FecRate where
  /-- `!(fec_rate > 1.0 || fec_rate < 0.0)`. -/
  inRange : Bool
  /-- `fec_rate == 0.0`. -/
  isZero : Bool
  /-- `(fec_rate * n as f32) as usize`. -/
  times : Nat → Nat

structure Shredder where
  slot : UInt64
  parentSlot : UInt64
  version : UInt16
  fecRate : FecRate
  /-- The keypair's `sign_message`. -/
  signMessage : List UInt8 → Signature
  referenceTick : UInt8

namespace Shredder

def new (slot parentSlot : UInt64) (fecRate : FecRate) (signMessage : List UInt8 → Signature)
    (referenceTick : UInt8) (version : UInt16) : Except ShredError Shredder :=
  if !fecRate.inRange then .error .invalidFecRate
  else if slot < parentSlot || slot - parentSlot > 0xffff then
    .error (.slotTooLow slot.toNat parentSlot.toNat)
  else .ok { slot, parentSlot, version, fecRate, signMessage, referenceTick }

def entriesToDataShreds (sh : Shredder) (serializedShreds : List UInt8) (isLastInSlot : Bool)
    (nextShredIndex : UInt32) : List Shred × UInt32 :=
  let noHeaderSize := SIZE_OF_DATA_SHRED_PAYLOAD
  let numShreds := (serializedShreds.length + noHeaderSize - 1) / noHeaderSize
  let lastShredIndex := nextShredIndex + UInt32.ofNat numShreds - 1
  let dataShreds := (chunks noHeaderSize serializedShreds).mapIdx fun i shredData =>
    let shredIndex := nextShredIndex + UInt32.ofNat i
    let fecSetIndex := shredIndex - UInt32.ofNat (i % MAX_DATA_SHREDS_PER_FEC_BLOCK)
    let isLast := shredIndex == lastShredIndex
    signShred sh.signMessage
      (Shred.newFromData sh.slot shredIndex (sh.slot - sh.parentSlot).toUInt16 shredData isLast
      (isLast && isLastInSlot) sh.referenceTick sh.version fecSetIndex)
  (dataShreds, lastShredIndex + 1)

def calculateNumCodingShreds (numDataShreds : Nat) (fecRate : FecRate)
    (maxCodingShreds : Nat) : Nat :=
  if numDataShreds = 0 then 0 else min maxCodingShreds (max 1 (fecRate.times numDataShreds))

/-- The part of a data shred that is encoded. -/
def validDataLen : Nat := SHRED_PAYLOAD_SIZE - SIZE_OF_DATA_SHRED_IGNORED_TAIL

/-- Where the coding block of a coding shred begins. -/
def codingBlockOffset : Nat := SIZE_OF_COMMON_SHRED_HEADER + SIZE_OF_CODING_SHRED_HEADER

def generateCodingShreds (rs : ReedSolomon) (slot : UInt64) (fecRate : FecRate)
    (dataShredBatch : List Shred)
    (version : UInt16) (maxCodingShreds : Nat) : Except Panic (List Shred) :=
  match dataShredBatch with
  | [] => .error .assertion
  | first :: _ =>
    if fecRate.isZero then .ok []
    else
      let numData := dataShredBatch.length
      let numCoding := calculateNumCodingShreds numData fecRate maxCodingShreds
      let startIndex := first.commonHeader.index
      let emptyCoding (i : Nat) : Shred :=
        Shred.newEmptyCoding slot (startIndex + UInt32.ofNat i) startIndex numData
          numCoding i version
      match rs.new numData numCoding with
      | .error _ => .error (.expect "Failed to create erasure session")
      | .ok () =>
        match rs.encodeSep numData numCoding (dataShredBatch.map fun data =>
          data.payload.take validDataLen)
            ((List.range numCoding).map fun i =>
              (emptyCoding i).payload.drop codingBlockOffset) with
        | .error _ => .error (.expect "Failed in erasure encode")
        | .ok parity => .ok (parity.mapIdx fun i block =>
            { emptyCoding i with
              payload := writeAt (emptyCoding i).payload codingBlockOffset block })

def dataShredsToCodingShreds (sh : Shredder) (rs : ReedSolomon) (dataShreds : List Shred) :
    Except Panic (List Shred) := do
  let codingShreds ← (chunks MAX_DATA_SHREDS_PER_FEC_BLOCK dataShreds).mapM fun shredDataBatch =>
    generateCodingShreds rs sh.slot sh.fecRate shredDataBatch sh.version shredDataBatch.length
  return codingShreds.flatten.map (signShred sh.signMessage)

/-- `entries_to_shreds(entries, is_last_in_slot,
next_shred_index)`; `serialize` is `bincode::serialize`. -/
def entriesToShreds {ε : Type} (sh : Shredder) (rs : ReedSolomon) (serialize : List ε → List UInt8)
    (entries : List ε)
    (isLastInSlot : Bool) (nextShredIndex : UInt32) :
    Except Panic (List Shred × List Shred × UInt32) := do
  let (dataShreds, lastShredIndex) :=
    sh.entriesToDataShreds (serialize entries) isLastInSlot nextShredIndex
  let codingShreds ← sh.dataShredsToCodingShreds rs dataShreds
  return (dataShreds, codingShreds, lastShredIndex)

/-! ## Recovery -/

def verifyConsistentShredPayloadSizes (shreds : List Shred) : Except ErasureError Unit :=
  if shreds.isEmpty then .error .tooFewShardsPresent
  else if shreds.all fun shred => shred.payload.length == SHRED_PAYLOAD_SIZE then .ok ()
  else .error .incorrectShardSize

variable (numData : Nat)

/-- The buffer that stands for a missing shred. -/
def missingBlock (firstIndexInFecSet missing : Nat) : List UInt8 :=
  if missing < firstIndexInFecSet + numData then Shred.newEmptyDataShred.payload
  else List.replicate SHRED_PAYLOAD_SIZE 0

/-- A block for one missing shred, and its flag cleared. -/
def fillStep (firstIndexInFecSet : Nat) (acc : List (List UInt8) × List Bool) (missing : Nat) :
    Except Panic (List (List UInt8) × List Bool) := do
  let _ ← index acc.2 (missing - firstIndexInFecSet)
  return (acc.1 ++ [missingBlock numData firstIndexInFecSet missing],
    acc.2.set (missing - firstIndexInFecSet) false)

/-- `fill_in_missing_shreds(..)`: the blocks, and `present` after the call. -/
def fillInMissingShreds (numCoding firstIndexInFecSet expectedIndex indexFound : Nat)
    (present : List Bool) : Except Panic (List (List UInt8) × List Bool) :=
  let endIndex := indexFound - 1
  if firstIndexInFecSet ≤ endIndex ∧ endIndex < firstIndexInFecSet + numData + numCoding then
    (List.range' expectedIndex (indexFound - expectedIndex)).foldlM
      (fillStep numData firstIndexInFecSet) ([], present)
  else .ok ([], present)

/-- `get_shred_index(..)`, on `usize`. -/
def getShredIndex (shred : Shred) (numData firstDataIndex firstCodeIndex : Nat) : Nat :=
  if shred.isData then shred.index
    else wrapSub (shred.index + numData + firstDataIndex) firstCodeIndex

/-- What the loop of `try_recovery` over the shreds has built. -/
structure Placed where
  shredBufs : List (List UInt8)
  present : List Bool
  nextExpectedIndex : Nat

def place (numCoding firstIndex firstCodeIndex : Nat) (p : Placed) (shred : Shred) :
    Except Panic Placed := do
  let shredIndex := getShredIndex shred numData firstIndex firstCodeIndex
  let (blocks, present) ←
    fillInMissingShreds numData numCoding firstIndex p.nextExpectedIndex shredIndex p.present
  return {
    shredBufs := p.shredBufs ++ blocks ++ [shred.payload]
    present
    nextExpectedIndex := wrapAdd shredIndex 1 }

/-- The window of a buffer that the coder sees. -/
def blockOf (position : Nat) (buf : List UInt8) : Except Panic (List UInt8) :=
  if position < numData then
    if buf.length < validDataLen then .error .indexOutOfBounds else .ok (buf.take validDataLen)
  else if buf.length < codingBlockOffset then .error .indexOutOfBounds
  else .ok (buf.drop codingBlockOffset)

/-- A buffer after the coder wrote its window. -/
def withBlock (position : Nat) (buf block : List UInt8) : List UInt8 :=
  writeAt buf (if position < numData then 0 else codingBlockOffset) block

/-- What the loop of `try_recovery` over `present` has drained. -/
structure Drained where
  shredBufs : List (List UInt8)
  numDrained : Nat
  recoveredData : List Shred

/-- What the coder filled in, if it parses to a shred of the slot and of the set. -/
def recoveredShred (firstIndex slot : Nat) (shredBuf : List UInt8) : Except Panic (Option Shred) :=
  match Shred.newFromSerializedShred shredBuf with
  | .ok shred =>
    if shred.slot = slot ∧ firstIndex ≤ shred.index ∧ shred.index < firstIndex + numData then
      .ok (some shred)
    else .ok none
  | .error (.error _) => .ok none
  | .error (.panic e) => .error e

def drain (firstIndex slot : Nat) (d : Drained) (position : Nat) (wasPresent : Bool) :
    Except Panic Drained :=
  if !wasPresent && decide (position < numData) then do
    let shredBuf ← index d.shredBufs (position - d.numDrained)
    let shred ← recoveredShred numData firstIndex slot shredBuf
    return {
      shredBufs := d.shredBufs.eraseIdx (position - d.numDrained)
      numDrained := d.numDrained + 1
      recoveredData := d.recoveredData ++ shred.toList }
  else .ok d

/-- The loop over `present`, from a position on. -/
def drainAll (numData firstIndex slot : Nat) : Drained → Nat → List Bool → Except Panic Drained
  | d, _, [] => .ok d
  | d, position, wasPresent :: present => do
    let d ← drain numData firstIndex slot d position wasPresent
    drainAll numData firstIndex slot d (position + 1) present

/-- `try_recovery` from the point where every shred of the set has a buffer. -/
def reconstruct (rs : ReedSolomon) (numData numCoding firstIndex slot : Nat)
    (shredBufs : List (List UInt8)) (present : List Bool) : Res ErasureError (List Shred) :=
  match rs.new numData numCoding with
  | .error e => .error (.error e)
  | .ok () => do
    let blocks ← liftPanic (shredBufs.zipIdx.mapM fun x => blockOf numData x.2 x.1)
    match rs.reconstructData numData numCoding (blocks.zip present) with
    | .error e => .error (.error e)
    | .ok blocks =>
      let shredBufs := (shredBufs.zip blocks).mapIdx fun position x =>
        withBlock numData position x.1 x.2
      let d ← liftPanic (drainAll numData firstIndex slot { shredBufs, numDrained := 0, recoveredData := [] } 0 present)
      return d.recoveredData

def tryRecovery (rs : ReedSolomon) (shreds : List Shred)
    (numData numCoding firstIndex firstCodeIndex slot : Nat) : Res ErasureError (List Shred) :=
  match verifyConsistentShredPayloadSizes shreds with
  | .error e => .error (.error e)
  | .ok () =>
    let fecSetSize := numData + numCoding
    if 0 < numCoding ∧ shreds.length < fecSetSize then do
      let p ← liftPanic (shreds.foldlM (place numData numCoding firstIndex firstCodeIndex)
        { shredBufs := [], present := List.replicate fecSetSize true,
          nextExpectedIndex := firstIndex })
      -- The missing shreds after the last one that was received.
      let (pendingShreds, present) ← liftPanic
        (fillInMissingShreds numData numCoding firstIndex p.nextExpectedIndex
        (firstIndex + fecSetSize) p.present)
      let shredBufs := p.shredBufs ++ pendingShreds
      if shredBufs.length ≠ fecSetSize then .error (.error .tooFewShardsPresent)
      else reconstruct rs numData numCoding firstIndex slot shredBufs present
    else return []

def reassemblePayload (dataShredBufs : List (List UInt8)) : List UInt8 :=
  dataShredBufs.flatMap fun data =>
    bytesAt data (SIZE_OF_COMMON_SHRED_HEADER + SIZE_OF_DATA_SHRED_HEADER)
      (validDataLen - (SIZE_OF_COMMON_SHRED_HEADER + SIZE_OF_DATA_SHRED_HEADER))

def deshred (shreds : List Shred) : Except ErasureError (List UInt8) :=
  match verifyConsistentShredPayloadSizes shreds with
  | .error e => .error e
  | .ok () =>
    match shreds.head?, shreds.getLast? with
    | some first, some last =>
      let lastIndex := if last.dataComplete || last.lastInSlot then last.index else 0
      if shreds.length + first.index ≠ lastIndex + 1 then .error .tooFewDataShards
      else .ok (reassemblePayload (shreds.map Shred.payload))
    -- `shreds` is not empty here.
    | _, _ => .error .tooFewShardsPresent

/-! ## Recovery never aborts -/

variable {numData numCoding firstIndex slot position first expected found firstCodeIndex : Nat}
  {present : List Bool} {d d' : Drained} {shred : Shred} {shredBuf buf block : List UInt8}
  {shredBufs : List (List UInt8)} {rs : ReedSolomon} {result : List Shred}

/-- `present` with the flags of the missing shreds cleared. -/
def clearMissing (firstIndexInFecSet : Nat) (missing : List Nat)
    (present : List Bool) : List Bool :=
  missing.foldl (fun present m => present.set (m - firstIndexInFecSet) false) present

@[simp] theorem length_clearMissing (first : Nat) (missing : List Nat) (present : List Bool) :
    (clearMissing first missing present).length = present.length := by
  induction missing generalizing present with
  | nil => rfl
  | cons m missing ih => exact (ih _).trans length_set

/-- The loop of `fill_in_missing_shreds`, while every position is inside `present`. -/
theorem foldlM_fillStep (numData first : Nat) (missing : List Nat) (blocks : List (List UInt8))
    (present : List Bool) (hin : ∀ m ∈ missing, m - first < present.length) :
    missing.foldlM (fillStep numData first) (blocks, present) =
      .ok (blocks ++ missing.map (missingBlock numData first),
        clearMissing first missing present) := by
  induction missing generalizing blocks present with
  | nil =>
    rw [map_nil, append_nil]
    rfl
  | cons m missing ih =>
    have hstep : fillStep numData first (blocks, present) m =
        .ok (blocks ++ [missingBlock numData first m], present.set (m - first) false) := by
      unfold fillStep
      rw [index_eq_ok (hin m mem_cons_self)]
      rfl
    have hrest : ∀ m' ∈ missing, m' - first < (present.set (m - first) false).length := by
      intro m' hm'
      rw [length_set]
      exact hin m' (mem_cons_of_mem _ hm')
    rw [foldlM_cons, hstep, ok_bind, ih _ _ hrest, append_assoc]
    rfl

/-- **What `fill_in_missing_shreds` returns.** -/
theorem fillInMissingShreds_eq (hlen : present.length = numData + numCoding)
    (hrange : first ≤ found - 1 ∧ found - 1 < first + numData + numCoding) :
    fillInMissingShreds numData numCoding first expected found present =
      .ok ((List.range' expected (found - expected)).map (missingBlock numData first),
        clearMissing first (List.range' expected (found - expected)) present) := by
  unfold fillInMissingShreds
  rw [if_pos hrange]
  refine (foldlM_fillStep numData first _ [] present ?_).trans (by rw [nil_append])
  intro m hm
  rw [mem_range'_1] at hm
  omega

theorem length_missingBlock (numData first missing : Nat) :
    (missingBlock numData first missing).length = SHRED_PAYLOAD_SIZE := by
  unfold missingBlock
  split
  · decide +kernel
  · exact length_replicate

theorem fillInMissingShreds_returns (hlen : present.length = numData + numCoding) :
    Returns (fillInMissingShreds numData numCoding first expected found present)
      (fun r => r.2.length = numData + numCoding ∧ ∀ block ∈ r.1, block.length = SHRED_PAYLOAD_SIZE)
      fun _ => False := by
  by_cases hrange : first ≤ found - 1 ∧ found - 1 < first + numData + numCoding
  · rw [fillInMissingShreds_eq hlen hrange]
    refine ⟨(length_clearMissing ..).trans hlen, fun block hblock => ?_⟩
    obtain ⟨m, -, rfl⟩ := mem_map.mp hblock
    exact length_missingBlock ..
  · unfold fillInMissingShreds
    rw [if_neg hrange]
    exact ⟨hlen, fun block hblock => by cases hblock⟩

/-- The buffers and the flags keep their lengths. -/
def Placed.Sized (numData numCoding : Nat) (p : Placed) : Prop :=
  p.present.length = numData + numCoding ∧ ∀ buf ∈ p.shredBufs, buf.length = SHRED_PAYLOAD_SIZE

theorem place_returns {p : Placed} (hp : p.Sized numData numCoding)
    (hshred : shred.payload.length = SHRED_PAYLOAD_SIZE) :
    Returns (place numData numCoding firstIndex firstCodeIndex p shred)
      (Placed.Sized numData numCoding) fun _ => False := by
  refine (fillInMissingShreds_returns hp.1).bind fun r hr => ?_
  exact ⟨hr.1, forall_mem_concat.mpr ⟨forall_mem_append.mpr ⟨hp.2, hr.2⟩, hshred⟩⟩

/-- The buffers that are left, and how many were drained before a position. -/
def Drained.Sized (total position : Nat) (d : Drained) : Prop :=
  d.shredBufs.length + d.numDrained = total ∧ d.numDrained ≤ position ∧
    ∀ buf ∈ d.shredBufs, buf.length = SHRED_PAYLOAD_SIZE

theorem recoveredShred_returns (hbuf : shredBuf.length = SHRED_PAYLOAD_SIZE) :
    Returns (recoveredShred numData firstIndex slot shredBuf) (fun _ => True) fun _ => False := by
  have hnopanic := Shred.newFromSerializedShred_noPanic hbuf.ge
  unfold recoveredShred
  split
  · split <;> trivial
  · trivial
  · rename_i e hparse
    exact hnopanic e hparse

theorem drain_returns {total : Nat} (wasPresent : Bool) (hd : d.Sized total position)
    (hposition : position < total) :
    Returns (drain numData firstIndex slot d position wasPresent)
      (Drained.Sized total (position + 1)) fun _ => False := by
  obtain ⟨htotal, hle, hbufs⟩ := hd
  unfold drain
  split
  · have hin : position - d.numDrained < d.shredBufs.length := by omega
    rw [index_eq_ok hin]
    refine (recoveredShred_returns (hbufs _ (getElem_mem hin))).bind fun shred _ => ⟨?_, ?_, ?_⟩
    · change (d.shredBufs.eraseIdx _).length + (d.numDrained + 1) = total
      rw [length_eraseIdx_of_lt hin]
      omega
    · exact Nat.succ_le_succ hle
    · exact fun buf hmem => hbufs buf (mem_of_mem_eraseIdx hmem)
  · exact ⟨htotal, by omega, hbufs⟩

theorem drainAll_returns (total : Nat) (present : List Bool) (hd : d.Sized total position)
    (hlen : position + present.length ≤ total) :
    Returns (drainAll numData firstIndex slot d position present) (fun _ => True)
      fun _ => False := by
  induction present generalizing d position with
  | nil => trivial
  | cons wasPresent present ih =>
    rw [length_cons] at hlen
    refine (drain_returns wasPresent hd (by omega)).bind fun d' hd' => ?_
    exact ih hd' (by omega)

theorem blockOf_eq_ok (hbuf : buf.length = SHRED_PAYLOAD_SIZE) :
    blockOf numData position buf =
      .ok (if position < numData then buf.take validDataLen else buf.drop codingBlockOffset) := by
  have hdata : ¬ buf.length < validDataLen := by
    rw [hbuf]
    decide
  have hcoding : ¬ buf.length < codingBlockOffset := by
    rw [hbuf]
    decide
  unfold blockOf
  split <;> rfl

/-- A computation that cannot abort, run inside one that can also fail. -/
theorem liftPanic_bind_noPanic {α β : Type} {x : Except Panic α}
    {f : α → Res ErasureError β} {P : α → Prop}
    (hx : Returns x P fun _ => False)
    (hf : ∀ a, P a → NoPanic (f a)) : NoPanic (liftPanic x >>= f) := by
  obtain ⟨a, rfl, ha⟩ := hx.exists_ok fun _ h => h
  exact hf a ha

def blocksOf (numData : Nat) (shredBufs : List (List UInt8)) : List (List UInt8) :=
  shredBufs.zipIdx.map fun x => if x.2 < numData then x.1.take validDataLen
    else x.1.drop codingBlockOffset

section

variable (hbufs : ∀ buf ∈ shredBufs, buf.length = SHRED_PAYLOAD_SIZE)
include hbufs

theorem mapM_blockOf :
    (shredBufs.zipIdx.mapM fun x => blockOf numData x.2 x.1) =
      .ok (blocksOf numData shredBufs) := by
  refine mapM_eq_ok_map fun x hx => ?_
  exact blockOf_eq_ok (hbufs _ (fst_mem_of_mem_zipIdx hx))

omit hbufs in
theorem length_blocksOf (numData : Nat) (shredBufs : List (List UInt8)) :
    (blocksOf numData shredBufs).length = shredBufs.length := by simp [blocksOf]

theorem length_of_mem_blocksOf
    (h : block ∈ blocksOf numData shredBufs) : block.length = validDataLen := by
  obtain ⟨x, hx, rfl⟩ := mem_map.mp h
  have hlen := hbufs _ (fst_mem_of_mem_zipIdx hx)
  split
  · rw [length_take, hlen]
    rfl
  · rw [length_drop, hlen]
    rfl

omit hbufs in
theorem length_withBlock (hbuf : buf.length = SHRED_PAYLOAD_SIZE)
    (hblock : block.length = validDataLen) :
    (withBlock numData position buf block).length = SHRED_PAYLOAD_SIZE := by
  unfold withBlock
  rw [length_writeAt, hbuf]
  rw [hblock, hbuf]
  split <;> decide

/-- The blocks that the coder returns for buffers of the right size. -/
theorem reconstructData_sized {blocks : List (List UInt8)}
    (hpresent : present.length = shredBufs.length)
    (h : rs.reconstructData numData numCoding ((blocksOf numData shredBufs).zip present) =
      .ok blocks) :
    blocks.length = shredBufs.length ∧ ∀ block ∈ blocks, block.length = validDataLen := by
  have hlengths := rs.reconstructData_lengths _ _ _ _ h
  constructor
  · have hcount := congrArg List.length hlengths
    simpa [length_blocksOf, hpresent] using hcount
  · intro block hblock
    have hmem : block.length ∈ ((blocksOf numData shredBufs).zip present).map
        fun b => b.1.length := by
      rw [← hlengths]
      exact mem_map_of_mem hblock
    obtain ⟨b, hb, hlen⟩ := mem_map.mp hmem
    rw [← hlen]
    exact length_of_mem_blocksOf hbufs (of_mem_zip hb).1

end

theorem reconstruct_noPanic (rs : ReedSolomon) (firstIndex slot : Nat)
    (hlen : shredBufs.length = numData + numCoding)
    (hbufs : ∀ buf ∈ shredBufs, buf.length = SHRED_PAYLOAD_SIZE)
    (hpresent : present.length = numData + numCoding) :
    NoPanic (reconstruct rs numData numCoding firstIndex slot shredBufs present) := by
  unfold reconstruct
  split
  · exact NoPanic.error _
  · rw [mapM_blockOf hbufs, liftPanic_ok, ok_bind]
    split
    · exact NoPanic.error _
    · rename_i blocks hblocks
      obtain ⟨hcount, hsize⟩ := reconstructData_sized hbufs (hpresent.trans hlen.symm) hblocks
      refine liftPanic_bind_noPanic
        (drainAll_returns (numData + numCoding) present ⟨?_, Nat.le_refl 0, ?_⟩ ?_)
          fun d _ => NoPanic.ok _
      · simp [hcount, hlen]
      · intro buf hbuf
        obtain ⟨i, hi, rfl⟩ := mem_mapIdx.mp hbuf
        have hmem := of_mem_zip (getElem_mem hi)
        exact length_withBlock (hbufs _ hmem.1) (hsize _ hmem.2)
      · omega

theorem tryRecovery_noPanic (rs : ReedSolomon) (shreds : List Shred)
    (numData numCoding firstIndex firstCodeIndex slot : Nat) :
    NoPanic (tryRecovery rs shreds numData numCoding firstIndex firstCodeIndex slot) := by
  unfold tryRecovery
  split
  · exact NoPanic.error _
  · rename_i hsizes
    have hshreds : ∀ shred ∈ shreds, shred.payload.length = SHRED_PAYLOAD_SIZE := by
      unfold verifyConsistentShredPayloadSizes at hsizes
      split at hsizes
      · cases hsizes
      · obtain ⟨hall, hsizes⟩ := ite_eq_ok.mp hsizes
        intro shred hshred
        exact beq_iff_eq.mp (all_eq_true.mp hall shred hshred)
    dsimp only
    split
    · have hplaced : Returns (shreds.foldlM (place numData numCoding firstIndex firstCodeIndex)
          { shredBufs := [], present := List.replicate (numData + numCoding) true,
            nextExpectedIndex := firstIndex })
          (Placed.Sized numData numCoding) fun _ => False := by
        refine Returns.foldlM (P := fun _ => Placed.Sized numData numCoding) shreds [] ⟨?_, ?_⟩ ?_
        · exact length_replicate
        · intro buf hbuf
          cases hbuf
        · intro pre shred post p hsplit hp
          refine place_returns hp (hshreds shred ?_)
          rw [nil_append] at hsplit
          rw [hsplit]
          exact mem_append_right _ mem_cons_self
      refine liftPanic_bind_noPanic hplaced fun p hp => ?_
      refine liftPanic_bind_noPanic (fillInMissingShreds_returns hp.1) fun r hr => ?_
      split
      · exact NoPanic.error _
      · rename_i hlen
        exact reconstruct_noPanic rs firstIndex slot (not_not.mp hlen)
          (forall_mem_append.mpr ⟨hp.2, hr.2⟩) hr.1
    · exact NoPanic.ok _

/-! ## What recovery returns was parsed -/

theorem recoveredShred_parsed
    (h : recoveredShred numData firstIndex slot shredBuf = .ok (some shred)) : shred.Parsed := by
  unfold recoveredShred at h
  split at h
  · rename_i s hparse
    split at h
    · cases h
      exact ⟨shredBuf, hparse⟩
    · cases h
  · cases h
  · cases h

theorem drain_parsed {wasPresent : Bool}
    (h : drain numData firstIndex slot d position wasPresent = .ok d')
    (hd : ∀ s ∈ d.recoveredData, s.Parsed) :
    ∀ s ∈ d'.recoveredData, s.Parsed := by
  unfold drain at h
  split at h
  · obtain ⟨buf, -, h⟩ := bind_eq_ok.mp h
    obtain ⟨shred, hshred, h⟩ := bind_eq_ok.mp h
    cases h
    refine forall_mem_append.mpr ⟨hd, fun s hs => ?_⟩
    cases Option.mem_toList.mp hs
    exact recoveredShred_parsed hshred
  · cases h
    exact hd

theorem drainAll_parsed (h : drainAll numData firstIndex slot d position present = .ok d')
    (hd : ∀ s ∈ d.recoveredData, s.Parsed) :
    ∀ s ∈ d'.recoveredData, s.Parsed := by
  induction present generalizing d position with
  | nil =>
    cases h
    exact hd
  | cons wasPresent present ih =>
    obtain ⟨d₁, hd₁, h⟩ := bind_eq_ok.mp h
    exact ih h (drain_parsed hd₁ hd)

theorem reconstruct_parsed
    (h : reconstruct rs numData numCoding firstIndex slot shredBufs present = .ok result) :
    ∀ s ∈ result, s.Parsed := by
  unfold reconstruct at h
  split at h
  · cases h
  · obtain ⟨blocks, -, h⟩ := bind_eq_ok.mp h
    split at h
    · cases h
    · obtain ⟨d, hd, h⟩ := bind_eq_ok.mp h
      cases h
      exact drainAll_parsed (liftPanic_eq_ok hd) fun s hs => absurd hs not_mem_nil

theorem tryRecovery_parsed {shreds : List Shred}
    (h : tryRecovery rs shreds numData numCoding firstIndex firstCodeIndex slot = .ok result) :
    ∀ s ∈ result, s.Parsed := by
  unfold tryRecovery at h
  split at h
  · cases h
  · dsimp only at h
    split at h
    · obtain ⟨p, -, h⟩ := bind_eq_ok.mp h
      obtain ⟨r, -, h⟩ := bind_eq_ok.mp h
      split at h
      · cases h
      · exact reconstruct_parsed h
    · cases h
      exact fun s hs => absurd hs not_mem_nil

end Shredder

end Panoptes.Ledger
