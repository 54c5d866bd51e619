import Panoptes.Lib.Bytes
import Panoptes.Ledger.Poh
import Panoptes.Sdk.Transaction

/-!
# Shreds

`ledger/src/shred.rs`: a shred is a packet-sized buffer with a common header, the header of a data
or of a coding shred, and the bytes of its kind.  A `Shred` keeps the parsed headers beside the
buffer.

* `ShredCommonHeader.bytes`, `DataShredHeader.bytes`, `CodingShredHeader.bytes` — the fixed layouts.
* `Shred.newFromData`, `Shred.newEmptyCoding`, `signShred` — how shreds are made.
* `Shred.newFromSerializedShred` — how a received buffer becomes a shred.

Principal results: `Shred.isDataShred_newFromData` with `Shred.IsDataShred.parse`: the buffer of a
data shred parses to that shred, signed or not; `Shred.Parsed.parse`: so does the buffer of any
shred that was parsed.
-/

set_option autoImplicit false

namespace Panoptes.Ledger

open Lib Sdk List UInt16

def PACKET_DATA_SIZE : Nat := 1280 - 40 - 8

def SIZE_OF_COMMON_SHRED_HEADER : Nat := 83
def SIZE_OF_DATA_SHRED_HEADER : Nat := 5
def SIZE_OF_CODING_SHRED_HEADER : Nat := 6
def SIZE_OF_SIGNATURE : Nat := 64
def SIZE_OF_NONCE : Nat := 4

def SIZE_OF_DATA_SHRED_IGNORED_TAIL : Nat :=
  SIZE_OF_COMMON_SHRED_HEADER + SIZE_OF_CODING_SHRED_HEADER

def SIZE_OF_DATA_SHRED_PAYLOAD : Nat :=
  PACKET_DATA_SIZE - SIZE_OF_COMMON_SHRED_HEADER - SIZE_OF_DATA_SHRED_HEADER -
    SIZE_OF_DATA_SHRED_IGNORED_TAIL
    - SIZE_OF_NONCE

def SHRED_PAYLOAD_SIZE : Nat := PACKET_DATA_SIZE - SIZE_OF_NONCE

def DATA_SHRED : UInt8 := 0b10100101
def CODING_SHRED : UInt8 := 0b01011010

def MAX_DATA_SHREDS_PER_FEC_BLOCK : Nat := 32

def SHRED_TICK_REFERENCE_MASK : UInt8 := 0b00111111
def LAST_SHRED_IN_SLOT : UInt8 := 0b10000000
def DATA_COMPLETE_SHRED : UInt8 := 0b01000000

/-- The errors of making a shredder and of parsing a shred. -/
inductive ShredError where
  | invalidShredType
  | invalidFecRate
  | slotTooLow (slot parentSlot : Nat)
  | invalidParentOffset (slot parentOffset : Nat)
  deriving DecidableEq, Repr

/-! ## Headers -/

structure ShredCommonHeader where
  signature : Signature
  shredType : UInt8
  slot : UInt64
  index : UInt32
  version : UInt16
  fecSetIndex : UInt32
  deriving DecidableEq, Repr

open ShredCommonHeader

def ShredCommonHeader.default : ShredCommonHeader :=
  { signature := 0, shredType := DATA_SHRED, slot := 0, index := 0, version := 0, fecSetIndex := 0 }

structure DataShredHeader where
  parentOffset : UInt16
  flags : UInt8
  size : UInt16
  deriving DecidableEq, Repr

def DataShredHeader.default : DataShredHeader := { parentOffset := 0, flags := 0, size := 0 }

structure CodingShredHeader where
  numDataShreds : UInt16
  numCodingShreds : UInt16
  position : UInt16
  deriving DecidableEq, Repr

def CodingShredHeader.default : CodingShredHeader :=
  { numDataShreds := 0, numCodingShreds := 0, position := 0 }

def signatureBytes (signature : Signature) : List UInt8 := leBytes SIZE_OF_SIGNATURE signature.toNat

def ShredCommonHeader.bytes (h : ShredCommonHeader) : List UInt8 :=
  encodeFields [(64, h.signature.toNat), (1, h.shredType.toNat), (8, h.slot.toNat),
    (4, h.index.toNat),
    (2, h.version.toNat), (4, h.fecSetIndex.toNat)]

def ShredCommonHeader.ofBytes (buf : List UInt8) : ShredCommonHeader :=
  { signature := BitVec.ofNat 512 (leNat (bytesAt buf 0 64))
    shredType := UInt8.ofNat (leNat (bytesAt buf 64 1))
    slot := UInt64.ofNat (leNat (bytesAt buf 65 8))
    index := UInt32.ofNat (leNat (bytesAt buf 73 4))
    version := ofNat (leNat (bytesAt buf 77 2))
    fecSetIndex := UInt32.ofNat (leNat (bytesAt buf 79 4)) }

def DataShredHeader.bytes (h : DataShredHeader) : List UInt8 :=
  encodeFields [(2, h.parentOffset.toNat), (1, h.flags.toNat), (2, h.size.toNat)]

def DataShredHeader.ofBytes (buf : List UInt8) : DataShredHeader :=
  { parentOffset := ofNat (leNat (bytesAt buf 0 2))
    flags := UInt8.ofNat (leNat (bytesAt buf 2 1))
    size := ofNat (leNat (bytesAt buf 3 2)) }

def CodingShredHeader.bytes (h : CodingShredHeader) : List UInt8 :=
  encodeFields [(2, h.numDataShreds.toNat), (2, h.numCodingShreds.toNat), (2, h.position.toNat)]

def CodingShredHeader.ofBytes (buf : List UInt8) : CodingShredHeader :=
  { numDataShreds := ofNat (leNat (bytesAt buf 0 2))
    numCodingShreds := ofNat (leNat (bytesAt buf 2 2))
    position := ofNat (leNat (bytesAt buf 4 2)) }

@[simp] theorem ShredCommonHeader.length_bytes (h : ShredCommonHeader) : h.bytes.length = 83 :=
  length_encodeFields _

@[simp] theorem DataShredHeader.length_bytes (h : DataShredHeader) :
    h.bytes.length = 5 := length_encodeFields _

@[simp] theorem CodingShredHeader.length_bytes (h : CodingShredHeader) :
    h.bytes.length = 6 := length_encodeFields _

@[simp] theorem length_signatureBytes (signature : Signature) :
    (signatureBytes signature).length = 64 :=
  length_leBytes _ _

theorem ShredCommonHeader.ofBytes_bytes (h : ShredCommonHeader) : ofBytes h.bytes = h := by
  have hsignature : leNat (bytesAt h.bytes 0 64) = h.signature.toNat :=
    leNat_bytesAt_encodeFields [] _ (bitVec_toNat_lt (w := 64) h.signature) rfl
  have htype : leNat (bytesAt h.bytes 64 1) = h.shredType.toNat :=
    leNat_bytesAt_encodeFields [_] _ h.shredType.toNat_lt rfl
  have hslot : leNat (bytesAt h.bytes 65 8) = h.slot.toNat :=
    leNat_bytesAt_encodeFields [_, _] _ h.slot.toNat_lt rfl
  have hindex : leNat (bytesAt h.bytes 73 4) = h.index.toNat :=
    leNat_bytesAt_encodeFields [_, _, _] _ h.index.toNat_lt rfl
  have hversion : leNat (bytesAt h.bytes 77 2) = h.version.toNat :=
    leNat_bytesAt_encodeFields [_, _, _, _] _ h.version.toNat_lt rfl
  have hset : leNat (bytesAt h.bytes 79 4) = h.fecSetIndex.toNat :=
    leNat_bytesAt_encodeFields [_, _, _, _, _] _ h.fecSetIndex.toNat_lt rfl
  simp [ofBytes, hsignature, htype, hslot, hindex, hversion, hset]

theorem DataShredHeader.ofBytes_bytes (h : DataShredHeader) : ofBytes h.bytes = h := by
  have hoffset : leNat (bytesAt h.bytes 0 2) = h.parentOffset.toNat :=
    leNat_bytesAt_encodeFields [] _ h.parentOffset.toNat_lt rfl
  have hflags : leNat (bytesAt h.bytes 2 1) = h.flags.toNat :=
    leNat_bytesAt_encodeFields [_] _ h.flags.toNat_lt rfl
  have hsize : leNat (bytesAt h.bytes 3 2) = h.size.toNat :=
    leNat_bytesAt_encodeFields [_, _] _ h.size.toNat_lt rfl
  simp [ofBytes, hoffset, hflags, hsize]

/-! ## Shreds -/

structure Shred where
  commonHeader : ShredCommonHeader
  dataHeader : DataShredHeader
  codingHeader : CodingShredHeader
  payload : List UInt8
  deriving DecidableEq, Repr

namespace Shred

variable (s : Shred)

def slot : Nat := s.commonHeader.slot.toNat

def index : Nat := s.commonHeader.index.toNat

def fecSetIndex : Nat := s.commonHeader.fecSetIndex.toNat

def isData : Bool := s.commonHeader.shredType == DATA_SHRED

def isCode : Bool := s.commonHeader.shredType == CODING_SHRED

/-- The parent slot of a data shred; `u64::MAX` for a coding shred. -/
def parent : Nat :=
  if s.isData then (s.commonHeader.slot - s.dataHeader.parentOffset.toUInt64).toNat else U64_MAX

def lastInSlot : Bool := s.isData && s.dataHeader.flags &&& LAST_SHRED_IN_SLOT == LAST_SHRED_IN_SLOT

def dataComplete : Bool :=
  s.isData && s.dataHeader.flags &&& DATA_COMPLETE_SHRED == DATA_COMPLETE_SHRED

def referenceTick : Nat :=
  if s.isData then (s.dataHeader.flags &&& SHRED_TICK_REFERENCE_MASK).toNat
    else SHRED_TICK_REFERENCE_MASK.toNat

/-- `shred.verify(pubkey)`, with the signature scheme's check. -/
def verify (check : Pubkey → Signature → List UInt8 → Bool) (pubkey : Pubkey) : Bool :=
  check pubkey s.commonHeader.signature (s.payload.drop SIZE_OF_SIGNATURE)

/-- `Shred::new_from_data(..)` for data that fits in the buffer; no data is the empty list. -/
def newFromData (slot : UInt64) (index : UInt32) (parentOffset : UInt16) (data : List UInt8)
    (isLastInFecSet isLastInSlot : Bool) (referenceTick : UInt8) (version : UInt16)
    (fecSetIndex : UInt32) : Shred :=
  let commonHeader := { default with slot, index, version, fecSetIndex }
  let size := ofNat (data.length + SIZE_OF_DATA_SHRED_HEADER + SIZE_OF_COMMON_SHRED_HEADER)
  let flags := min referenceTick SHRED_TICK_REFERENCE_MASK
  let flags := if isLastInFecSet then flags ||| DATA_COMPLETE_SHRED else flags
  let flags := if isLastInSlot then flags ||| LAST_SHRED_IN_SLOT else flags
  let dataHeader := { parentOffset, flags, size }
  let payload := List.replicate SHRED_PAYLOAD_SIZE 0
  let payload := writeAt payload 0 commonHeader.bytes
  let payload := writeAt payload SIZE_OF_COMMON_SHRED_HEADER dataHeader.bytes
  let payload := writeAt payload (SIZE_OF_COMMON_SHRED_HEADER + SIZE_OF_DATA_SHRED_HEADER) data
  { commonHeader, dataHeader, codingHeader := .default, payload }

def newEmptyFromHeader (commonHeader : ShredCommonHeader) (dataHeader : DataShredHeader)
    (codingHeader : CodingShredHeader) : Shred :=
  let payload := writeAt (List.replicate SHRED_PAYLOAD_SIZE 0) 0 commonHeader.bytes
  let payload :=
    if commonHeader.shredType == DATA_SHRED then
      writeAt payload SIZE_OF_COMMON_SHRED_HEADER dataHeader.bytes
    else if commonHeader.shredType == CODING_SHRED then
      writeAt payload SIZE_OF_COMMON_SHRED_HEADER codingHeader.bytes
    else payload
  { commonHeader, dataHeader, codingHeader, payload }

def newEmptyDataShred : Shred := newEmptyFromHeader .default .default .default

/-- `Shred::new_empty_coding(..)`, with the headers of `Shredder::new_coding_shred_header`. -/
def newEmptyCoding (slot : UInt64) (index fecSetIndex : UInt32) (numData numCode position : Nat)
    (version : UInt16) : Shred :=
  newEmptyFromHeader { default with shredType := CODING_SHRED, index, slot, version, fecSetIndex }
    .default
    { numDataShreds := ofNat numData
      numCodingShreds := ofNat numCode
      position := ofNat position }

def newFromSerializedShred (payload : List UInt8) : Res ShredError Shred :=
  -- `&buf[*index..*index + size]` in `deserialize_obj`
  if payload.length < SIZE_OF_COMMON_SHRED_HEADER then .error (.panic .indexOutOfBounds)
  else
    let commonHeader := ofBytes (bytesAt payload 0 SIZE_OF_COMMON_SHRED_HEADER)
    if payload.length < SHRED_PAYLOAD_SIZE then .error (.panic .assertion)
    else
      let payload := payload.take SHRED_PAYLOAD_SIZE
      if commonHeader.shredType = CODING_SHRED then
        .ok {
          commonHeader
          dataHeader := .default
          codingHeader :=
            CodingShredHeader.ofBytes
              (bytesAt payload SIZE_OF_COMMON_SHRED_HEADER SIZE_OF_CODING_SHRED_HEADER)
          payload }
      else if commonHeader.shredType = DATA_SHRED then
        let dataHeader :=
          DataShredHeader.ofBytes
            (bytesAt payload SIZE_OF_COMMON_SHRED_HEADER SIZE_OF_DATA_SHRED_HEADER)
        if commonHeader.slot.toNat < dataHeader.parentOffset.toNat then
          .error
            (.error (.invalidParentOffset commonHeader.slot.toNat dataHeader.parentOffset.toNat))
        else .ok { commonHeader, dataHeader, codingHeader := .default, payload }
      else .error (.error .invalidShredType)

end Shred

/-- `Shredder::sign_shred(signer, shred)`, with the signer's function from messages to
signatures. -/
def signShred (signMessage : List UInt8 → Signature) (shred : Shred) : Shred :=
  let signature := signMessage (shred.payload.drop SIZE_OF_SIGNATURE)
  { shred with
    commonHeader := { shred.commonHeader with signature }
    payload := writeAt shred.payload 0 (signatureBytes signature) }

/-! ## What a buffer parses to -/

variable {payload : List UInt8}

/-- The buffer of a data shred begins with its headers. -/
structure Shred.IsDataShred (s : Shred) : Prop where
  length_payload : s.payload.length = SHRED_PAYLOAD_SIZE
  commonHeader : bytesAt s.payload 0 SIZE_OF_COMMON_SHRED_HEADER = s.commonHeader.bytes
  dataHeader : bytesAt s.payload SIZE_OF_COMMON_SHRED_HEADER SIZE_OF_DATA_SHRED_HEADER =
    s.dataHeader.bytes
  codingHeader : s.codingHeader = .default
  shredType : s.commonHeader.shredType = DATA_SHRED
  parentOffset : s.dataHeader.parentOffset.toNat ≤ s.commonHeader.slot.toNat

theorem Shred.IsDataShred.parse {s : Shred} (h : s.IsDataShred) :
    newFromSerializedShred s.payload = .ok s := by
  have htake : s.payload.take SHRED_PAYLOAD_SIZE = s.payload :=
    take_of_length_le h.length_payload.le
  unfold newFromSerializedShred
  rw [if_neg (by rw [h.length_payload]; decide), h.commonHeader, ofBytes_bytes]
  rw [if_neg (by rw [h.length_payload]; decide), if_neg (by rw [h.shredType]; decide),
    if_pos h.shredType, htake,
    h.dataHeader, DataShredHeader.ofBytes_bytes, if_neg (Nat.not_lt.mpr h.parentOffset),
      ← h.codingHeader]

/-- A shred that was parsed from some buffer. -/
def Shred.Parsed (s : Shred) : Prop := ∃ payload, Shred.newFromSerializedShred payload = .ok s

/-- What a buffer parses to is either kind of shred, over the first `SHRED_PAYLOAD_SIZE` bytes. -/
theorem Shred.newFromSerializedShred_cases {s : Shred}
    (h : newFromSerializedShred payload = .ok s) :
    SHRED_PAYLOAD_SIZE ≤ payload.length ∧ s.payload = payload.take SHRED_PAYLOAD_SIZE ∧
      (s.commonHeader.shredType = CODING_SHRED ∨
        s.commonHeader.shredType = DATA_SHRED ∧ s.dataHeader.parentOffset.toNat ≤
          s.commonHeader.slot.toNat) := by
  obtain ⟨-, h⟩ := ite_error_eq_ok.mp h
  obtain ⟨hlen, h⟩ := ite_error_eq_ok.mp h
  split at h
  · rename_i hcode
    cases h
    exact ⟨Nat.not_lt.mp hlen, rfl, .inl hcode⟩
  · obtain ⟨hdata, h⟩ := ite_eq_ok.mp h
    obtain ⟨hoffset, h⟩ := ite_error_eq_ok.mp h
    cases h
    exact ⟨Nat.not_lt.mp hlen, rfl, .inr ⟨hdata, Nat.not_lt.mp hoffset⟩⟩

/-- Parsing reads the first `SHRED_PAYLOAD_SIZE` bytes. -/
theorem Shred.newFromSerializedShred_take (h : SHRED_PAYLOAD_SIZE ≤ payload.length) :
    newFromSerializedShred (payload.take SHRED_PAYLOAD_SIZE) = newFromSerializedShred payload := by
  have hlen : (payload.take SHRED_PAYLOAD_SIZE).length = SHRED_PAYLOAD_SIZE := length_take_of_le h
  have hcommon : bytesAt (payload.take SHRED_PAYLOAD_SIZE) 0 SIZE_OF_COMMON_SHRED_HEADER =
      bytesAt payload 0 SIZE_OF_COMMON_SHRED_HEADER := by
    simp only [bytesAt, drop_zero, take_take]
    rfl
  have hheader : SIZE_OF_COMMON_SHRED_HEADER ≤ SHRED_PAYLOAD_SIZE := by decide
  have hshort : ¬ (payload.take SHRED_PAYLOAD_SIZE).length < SIZE_OF_COMMON_SHRED_HEADER := by omega
  have hshort' : ¬ payload.length < SIZE_OF_COMMON_SHRED_HEADER := by omega
  unfold newFromSerializedShred
  rw [if_neg hshort, if_neg hshort', hcommon]
  rw [if_neg hlen.not_lt, if_neg h.not_gt, take_take, Nat.min_self]

/-- A buffer of at least `SHRED_PAYLOAD_SIZE` bytes does not abort the parser. -/
theorem Shred.newFromSerializedShred_noPanic (h : SHRED_PAYLOAD_SIZE ≤ payload.length) :
    NoPanic (newFromSerializedShred payload) := by
  have hheader : SIZE_OF_COMMON_SHRED_HEADER ≤ SHRED_PAYLOAD_SIZE := by decide
  unfold newFromSerializedShred
  rw [if_neg (hheader.trans h).not_gt]
  dsimp only
  rw [if_neg h.not_gt]
  split
  · exact NoPanic.ok _
  · split
    · split
      · exact NoPanic.error _
      · exact NoPanic.ok _
    · exact NoPanic.error _

namespace Shred.Parsed

variable {s : Shred}

/-- The buffer that is stored of a parsed shred parses to the same shred. -/
theorem parse (h : s.Parsed) : newFromSerializedShred s.payload = .ok s := by
  obtain ⟨payload, h⟩ := h
  obtain ⟨hlen, hpayload, -⟩ := newFromSerializedShred_cases h
  rw [hpayload, newFromSerializedShred_take hlen, h]

theorem isData_or_isCode (h : s.Parsed) : s.isData ∨ s.isCode := by
  obtain ⟨payload, h⟩ := h
  obtain ⟨-, -, hcode | ⟨hdata, -⟩⟩ := newFromSerializedShred_cases h
  · exact .inr (beq_iff_eq.mpr hcode)
  · exact .inl (beq_iff_eq.mpr hdata)

end Shred.Parsed

/-! ## Made shreds parse -/

section Made

variable (slot : UInt64) (index : UInt32) (parentOffset : UInt16) (data : List UInt8)
  (isLastInFecSet isLastInSlot : Bool) (referenceTick : UInt8) (version : UInt16)
  (fecSetIndex : UInt32)

theorem Shred.payload_newFromData :
    let s :=
      newFromData slot index parentOffset data isLastInFecSet isLastInSlot referenceTick
        version fecSetIndex
    s.payload = (s.commonHeader.bytes ++ s.dataHeader.bytes ++ data) ++
      List.replicate (SHRED_PAYLOAD_SIZE - 83 - 5 - data.length) 0 := by
  intro s
  have hdata := writeAt_zeros data (SHRED_PAYLOAD_SIZE - 83 - 5)
    (show (s.commonHeader.bytes ++ s.dataHeader.bytes).length = 83 + 5 by simp)
  exact hdata

theorem Shred.isDataShred_newFromData (hdata : data.length ≤ SIZE_OF_DATA_SHRED_PAYLOAD)
    (hparent : parentOffset.toNat ≤ slot.toNat) :
    (newFromData slot index parentOffset data isLastInFecSet isLastInSlot referenceTick version
      fecSetIndex).IsDataShred := by
  have hpayload :=
    payload_newFromData slot index parentOffset data isLastInFecSet isLastInSlot
      referenceTick version
  have hsize : data.length ≤ 1051 := hdata
  constructor
  case length_payload =>
    rw [hpayload]
    simp only [length_append, length_replicate]
    change 83 + 5 + data.length + (1228 - 83 - 5 - data.length) = 1228
    omega
  case commonHeader =>
    exact take_left' (length_bytes _)
  case dataHeader =>
    exact bytesAt_append _ (length_bytes _) (DataShredHeader.length_bytes _)
  case codingHeader => rfl
  case shredType => rfl
  case parentOffset => exact hparent

end Made

/-- Signing writes the first bytes of the common header. -/
theorem bytesAt_writeAt_signature {h : ShredCommonHeader} (signature : Signature)
    (hheader : bytesAt payload 0 SIZE_OF_COMMON_SHRED_HEADER = h.bytes) :
    bytesAt (writeAt payload 0 (signatureBytes signature)) 0 SIZE_OF_COMMON_SHRED_HEADER =
      { h with signature }.bytes := by
  have htail : (payload.drop 64).take 19 = h.bytes.drop 64 := by
    rw [← hheader, bytesAt, drop_take]
    rfl
  change List.take 83
      (signatureBytes signature ++ payload.drop (0 + (signatureBytes signature).length)) = _
  rw [take_append]
  exact congrArg _ htail

theorem Shred.IsDataShred.sign {s : Shred} (h : s.IsDataShred)
    (signMessage : List UInt8 → Signature) : (signShred signMessage s).IsDataShred := by
  have hlen := h.length_payload
  have hfits : 0 + (signatureBytes (signMessage (s.payload.drop SIZE_OF_SIGNATURE))).length ≤
      s.payload.length := by
    rw [length_signatureBytes, hlen]
    decide
  constructor
  case length_payload => exact (length_writeAt hfits).trans hlen
  case commonHeader => exact bytesAt_writeAt_signature _ h.commonHeader
  case dataHeader =>
    change bytesAt (writeAt s.payload 0 _) _ _ = s.dataHeader.bytes
    rw [← h.dataHeader]
    unfold bytesAt
    rw [drop_writeAt (by rw [length_signatureBytes]; decide) hfits]
  case codingHeader => exact h.codingHeader
  case shredType => exact h.shredType
  case parentOffset => exact h.parentOffset

end Panoptes.Ledger
