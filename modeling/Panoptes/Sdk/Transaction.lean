import Panoptes.Sdk.Message

/-!
# Transactions

`sdk/src/transaction.rs`, the parts of `sdk/program/src/message.rs` that the bank reads of a
message, and the fee of `sdk/program/src/fee_calculator.rs`.

* `Transaction.sanitize` — what the bank checks before it locks the accounts.
* `Message.isNonLoaderKey` — the positions whose accounts are loaded and stored.
* `usesDurableNonce`, `getNoncePubkeyFromInstruction` — a leading `AdvanceNonceAccount`.
* `calculateFeeWithConfig` — the fee.

Principal result: `Message.isWritable_zero`, the first key of a sanitized message is one that pays.
-/

set_option autoImplicit false

namespace Panoptes.Sdk

open Lib

abbrev Signature := BitVec 512

structure Transaction where
  signatures : List Signature
  message : Message
  deriving DecidableEq, Repr

inductive TransactionError where
  | accountInUse
  | accountLoadedTwice
  | accountNotFound
  | programAccountNotFound
  | insufficientFundsForFee
  | invalidAccountForFee
  | duplicateSignature
  | blockhashNotFound
  | instructionError (index : Nat) (error : InstructionError)
  | callChainTooDeep
  | missingSignatureForFee
  | invalidAccountIndex
  | signatureFailure
  | invalidProgramForExecution
  | sanitizeFailure
  | clusterMaintenance
  deriving DecidableEq, Repr

namespace Message

variable (m : Message)

/-- `account_keys[index]`. -/
def key (index : Nat) : Pubkey := (m.accountKeys[index]?).getD 0

def programIds : List Pubkey := m.instructions.map fun ix => m.key ix.programIdIndex

/-- `is_key_passed_to_program`; the indices of an instruction are `u8`. -/
def isKeyPassedToProgram (index : Nat) : Bool :=
  decide (index < U8) && m.instructions.any fun ix => ix.accounts.contains index

def isNonLoaderKey (index : Nat) : Bool :=
  !m.programIds.contains (m.key index) || m.isKeyPassedToProgram index

/-- The first key that is loaded: it pays the fee. -/
def feePayerIndex : Option Nat :=
  (List.range m.accountKeys.length).find? fun i => m.isNonLoaderKey i

def writableKeys : List Pubkey :=
  ((List.range m.accountKeys.length).filter fun i => m.isWritable i).map m.key

/-- `Message::sanitize`, of counts that are `u8`. -/
def sanitize : Bool :=
  decide (m.header.numRequiredSignatures < U8) &&
  decide (m.header.numRequiredSignatures + m.header.numReadonlyUnsignedAccounts ≤
    m.accountKeys.length) &&
  decide (m.header.numReadonlySignedAccounts < m.header.numRequiredSignatures) &&
  m.instructions.all fun ix =>
    decide (ix.programIdIndex < m.accountKeys.length) && decide (ix.programIdIndex ≠ 0) &&
      ix.accounts.all fun i => decide (i < m.accountKeys.length)

end Message

def Transaction.sanitize (tx : Transaction) : Bool :=
  decide (tx.message.header.numRequiredSignatures ≤ tx.signatures.length) &&
  decide (tx.signatures.length ≤ tx.message.accountKeys.length) &&
  tx.message.sanitize

/-! ## The first key -/

namespace Message

variable {m : Message}

section

variable (h : m.sanitize = true)
include h

theorem sanitize_readonly :
    m.header.numReadonlySignedAccounts < m.header.numRequiredSignatures ∧
      m.header.numRequiredSignatures < U8 ∧
      m.header.numRequiredSignatures ≤ m.accountKeys.length := by
  simp only [sanitize, Bool.and_eq_true, decide_eq_true_eq] at h
  omega

theorem accountKeys_length_pos : 0 < m.accountKeys.length := by
  have := sanitize_readonly h
  omega

theorem isWritable_zero : m.isWritable 0 = true := by
  obtain ⟨hlt, hu8, -⟩ := sanitize_readonly h
  simp only [isWritable, Bool.or_eq_true, decide_eq_true_eq]
  simp only [U8] at hu8 ⊢
  omega

end

theorem key_inj (hnodup : m.accountKeys.Nodup) {i j : Nat} (hi : i < m.accountKeys.length)
    (hj : j < m.accountKeys.length) (h : m.key i = m.key j) : i = j := by
  simp only [key, List.getElem?_eq_getElem hi, List.getElem?_eq_getElem hj] at h
  exact (List.Nodup.getElem_inj_iff hnodup).mp h

theorem mem_writableKeys {pubkey : Pubkey} :
    pubkey ∈ m.writableKeys ↔ ∃ i, i < m.accountKeys.length ∧ m.isWritable i = true ∧
      m.key i = pubkey := by
  simp [writableKeys, and_assoc]

theorem key_mem {i : Nat} (hi : i < m.accountKeys.length) : m.key i ∈ m.accountKeys := by
  simp [key, List.getElem?_eq_getElem hi]

theorem mem_of_mem_writableKeys {pubkey : Pubkey} (h : pubkey ∈ m.writableKeys) :
    pubkey ∈ m.accountKeys := by
  obtain ⟨i, hi, -, rfl⟩ := mem_writableKeys.mp h
  exact key_mem hi

end Message

/-! ## Durable nonces -/

/-- The data of `SystemInstruction::AdvanceNonceAccount`: its tag, and anything behind it. -/
def isAdvanceNonceAccount (data : List UInt8) : Bool := data.take 4 == [4, 0, 0, 0]

def usesDurableNonce (tx : Transaction) : Option CompiledInstruction :=
  tx.message.instructions.head?.filter fun ix =>
    tx.message.accountKeys[ix.programIdIndex]? ==
      some SYSTEM_PROGRAM_ID && isAdvanceNonceAccount ix.data

def getNoncePubkeyFromInstruction (ix : CompiledInstruction) (tx : Transaction) : Option Pubkey :=
  ix.accounts.head?.bind fun index => tx.message.accountKeys[index]?

/-! ## Fees -/

/-- `KeccakSecp256k11111111111111111111111111111`. -/
def SECP256K1_PROGRAM_ID : Pubkey :=
  0x04c6fc20f050ccf05584d7211c9f8cf59ec14785bb166a1e2830e81220000000

/-- The signatures that an instruction of the secp256k1 program carries. -/
def secp256k1Signatures (m : Message) (ix : CompiledInstruction) : Nat :=
  if m.accountKeys[ix.programIdIndex]? = some SECP256K1_PROGRAM_ID then
    (ix.data.head?).elim 0 UInt8.toNat
  else 0

/-- `calculate_fee_with_config`, by the lamports of the fee calculator for each signature. -/
def calculateFeeWithConfig (lamportsPerSignature : Nat) (m : Message)
    (secp256k1ProgramEnabled : Bool) : Nat :=
  let secp := if secp256k1ProgramEnabled then (m.instructions.map (secp256k1Signatures m)).sum
    else 0
  wrapMul lamportsPerSignature (m.header.numRequiredSignatures + secp)

end Panoptes.Sdk
