import Panoptes.Runtime.RentCollector
import Panoptes.Sdk.Transaction

/-!
# Loading and storing the accounts of a transaction

`runtime/src/accounts.rs`, with the nonce rollback of `runtime/src/bank.rs`: the accounts of a
transaction are copied out of the bank, less rent and fee, and stored again when it is committed.

The program accounts and loaders of a transaction are loaded next to its accounts.  All that the
bank reads of them here is whether they are there (`CheckedTransaction.programs`).  Sums of rent
wrap with the counter they are added to, so they are sums of natural numbers here.

* `loadTxAccounts`, `loadTransaction` — `load_tx_accounts` and the body of `load_accounts`.
* `NonceRollbackFull.fromPartial` — the copies that a failed transaction with a durable nonce goes
  back to.
* `prepareIfNonceAccount`, `storeAt`, `collectAccountsToStore` — what is stored.
-/

set_option autoImplicit false

namespace Panoptes.Runtime

open Lib Sdk

/-- What loading and committing read of a bank besides its accounts. -/
structure BankEnv where
  rentCollector : RentCollector
  /-- The recent blockhashes, with the lamports of a signature. -/
  feeCalculator : Hash → Option Nat
  lastBlockhash : Hash
  lastLamportsPerSignature : Nat
  instructionsSysvarEnabled : Bool
  secp256k1ProgramEnabled : Bool
  fixRecentBlockhashesSysvarDelay : Bool
  rentFixEnabled : Bool

/-! ## System accounts and nonces -/

inductive SystemAccountKind where
  | system
  | nonce
  deriving DecidableEq, Repr

def NONCE_STATE_SIZE : Nat := 80

def getSystemAccountKind (account : BankAccount) : Option SystemAccountKind :=
  if account.owner = SYSTEM_PROGRAM_ID then
    if account.data.len = 0 then some .system
    else if account.data.len = NONCE_STATE_SIZE then
      match account.data.nonceState with
      | some (.initialized _) => some .nonce
      | _ => none
    else none
  else none

def verifyNonceAccount (account : BankAccount) (hash : Hash) : Bool :=
  decide (account.owner = SYSTEM_PROGRAM_ID) &&
    match account.data.nonceState with
    | some (.initialized data) => decide (hash = data.blockhash)
    | _ => false

/-- `fee_calculator_of`: the lamports of a signature. -/
def feeCalculatorOf (account : BankAccount) : Option Nat :=
  match account.data.nonceState with
  | some (.initialized data) => some data.lamportsPerSignature
  | _ => none

variable (env : BankEnv)

/-- The balance that a fee must leave in an account. -/
def minBalance : SystemAccountKind → Nat
  | .system => 0
  | .nonce => env.rentCollector.rent.minimumBalance NONCE_STATE_SIZE

structure NonceRollbackPartial where
  nonceAddress : Pubkey
  nonceAccount : BankAccount

structure NonceRollbackFull where
  nonceAddress : Pubkey
  nonceAccount : BankAccount
  feeAccount : Option BankAccount

/-- `NonceRollbackFull::from_partial`: the fee payer as it was loaded, less rent and fee. -/
def NonceRollbackFull.fromPartial (rollback : NonceRollbackPartial) (message : Message)
    (accounts : List BankAccount) : Except TransactionError NonceRollbackFull :=
  match message.feePayerIndex with
  | none => .error .accountNotFound
  | some payer =>
    match accounts[payer]? with
    | none => .error .accountNotFound
    | some feeAccount =>
      if message.key payer = rollback.nonceAddress then
        .ok ⟨rollback.nonceAddress, feeAccount, none⟩
      else .ok ⟨rollback.nonceAddress, rollback.nonceAccount, some feeAccount⟩

/-! ## Loading -/

section

variable (fee : Nat) (l : BankLedger) (message : Message)

/-- `construct_instructions_account`: the serialised instructions, and room for an index. -/
def constructInstructionsAccount : BankAccount :=
  let size (ix : CompiledInstruction) :=
    2 + 2 + ix.accounts.length * (1 + 32) + 32 + 2 + ix.data.length
  { (default : BankAccount) with data := ⟨2 + (message.instructions.map size).sum + 2, .other⟩ }

/-- The account at a position of the message, and the rent that was taken from it. -/
def loadAt (i : Nat) : BankAccount × Nat :=
  if message.isNonLoaderKey i then
    if message.key i = INSTRUCTIONS_ID ∧ env.instructionsSysvarEnabled then
      (constructInstructionsAccount message, 0)
    else
      match l[message.key i]? with
      | none => (default, 0)
      | some account =>
        if message.isWritable i then
          env.rentCollector.collectFromExistingAccount (message.key i) account env.rentFixEnabled
        else (account, 0)
  -- An empty account for the program slots.
  else (default, 0)

/-- The instructions sysvar may not be writable. -/
def hasWritableInstructions : Bool :=
  (List.range message.accountKeys.length).any fun i =>
    message.isNonLoaderKey i && decide (message.key i = INSTRUCTIONS_ID) &&
      env.instructionsSysvarEnabled
      && message.isWritable i

structure LoadedTransaction where
  accounts : List BankAccount
  rent : Nat

def chargeFee (payerIndex : Nat) (loaded : LoadedTransaction) :
    Except TransactionError LoadedTransaction :=
  let payer := accountAt loaded.accounts payerIndex
  if payer.lamports = 0 then .error .accountNotFound
  else
    match getSystemAccountKind payer with
    | none => .error .invalidAccountForFee
    | some kind =>
      if payer.lamports < wrapAdd fee (minBalance env kind) then .error .insufficientFundsForFee
      else
        .ok { loaded with
          accounts := loaded.accounts.set payerIndex { payer with
            lamports := wrapSub payer.lamports fee } }

/-- The accounts before the fee is taken. -/
def loadKeys : LoadedTransaction :=
  let indices := List.range message.accountKeys.length
  ⟨indices.map fun i => (loadAt env l message i).1,
    (indices.map fun i => (loadAt env l message i).2).sum⟩

def loadTxAccounts (tx : Transaction) (fee : Nat) : Except TransactionError LoadedTransaction :=
  if tx.signatures = [] ∧ fee ≠ 0 then .error .missingSignatureForFee
  else if hasWritableInstructions env tx.message then .error .invalidAccountIndex
  else
    match tx.message.feePayerIndex with
    | none => .error .accountNotFound
    | some payerIndex => chargeFee env fee payerIndex (loadKeys env l tx.message)

/-- A transaction that was checked: an error, or the nonce account that makes it durable, if any. -/
structure CheckedTransaction where
  tx : Transaction
  check : Except TransactionError (Option Pubkey)
  /-- Whether its programs and their loaders are found. -/
  programs : Except TransactionError Unit

/-- The fee of a transaction, by the fee calculator of its nonce account or of its blockhash. -/
def feeOf (nonceAccount : Option BankAccount) : Option Nat :=
  let lamportsPerSignature :=
    match nonceAccount with
    | some account => feeCalculatorOf account
    | none => env.feeCalculator message.recentBlockhash
  lamportsPerSignature.map fun n => calculateFeeWithConfig n message env.secp256k1ProgramEnabled

/-- The rollback state of a transaction with a durable nonce. -/
def rollbackOf (loaded : LoadedTransaction) : Option Pubkey →
    Except TransactionError (Option NonceRollbackFull)
  | none => .ok none
  | some nonceAddress =>
    (NonceRollbackFull.fromPartial ⟨nonceAddress, l.get nonceAddress⟩ message loaded.accounts).map
      some

/-- The body of `load_accounts`. -/
def loadTransaction (t : CheckedTransaction) :
    Except TransactionError (LoadedTransaction × Option NonceRollbackFull) :=
  match t.check with
  | .error e => .error e
  | .ok nonce =>
    match feeOf env t.tx.message (nonce.map l.get) with
    | none => .error .blockhashNotFound
    | some fee => do
      let loaded ← loadTxAccounts env l t.tx fee
      let _ ← t.programs
      let rollback ← rollbackOf l t.tx.message loaded nonce
      .ok (loaded, rollback)

end

/-! ## Storing -/

/-- The nonce of a nonce account is moved on to the last blockhash. -/
def advanceNonce (nonceAccount account : BankAccount) : Except Panic BankAccount :=
  match nonceAccount.data.nonceState with
  | none => .error .unwrapNone
  | some .uninitialized => .ok account
  | some (.initialized data) =>
    let data :=
      { data with
        blockhash := env.lastBlockhash, lamportsPerSignature := env.lastLamportsPerSignature }
    match account.data.setNonceState (.initialized data) with
    | none => .error .unwrapNone
    | some data => .ok { account with data }

/-- `prepare_if_nonce_account`: the account, and whether it is the nonce account. -/
def prepareIfNonceAccount (account : BankAccount) (key : Pubkey) (failed : Bool)
    (rollback : Option NonceRollbackFull) : Except Panic (BankAccount × Bool) :=
  match rollback with
  | none => .ok (account, false)
  | some r =>
    if key = r.nonceAddress then
      -- A failed transaction goes back to the account before it and moves the nonce on.
      if failed then (advanceNonce env r.nonceAccount r.nonceAccount).map fun a => (a, true)
      else if env.fixRecentBlockhashesSysvarDelay then .ok (account, true)
      else (advanceNonce env r.nonceAccount account).map fun a => (a, true)
    else .ok (account, false)

section

variable (message : Message) (failed : Bool) (rollback : Option NonceRollbackFull)
  (loaded : LoadedTransaction)

/-- What is stored of a failed transaction: the nonce account, and the fee payer as it was
loaded. -/
def rollBack (isNonceAccount isFeePayer : Bool) (rollback : Option NonceRollbackFull)
    (account : BankAccount) : Except Panic BankAccount :=
  match isNonceAccount, isFeePayer, rollback with
  | true, true, some ⟨_, _, none⟩ => .ok account
  | true, false, some ⟨_, _, some _⟩ => .ok account
  | false, true, some ⟨_, _, some feeAccount⟩ => .ok feeAccount
  | _, _, _ => .error (.explicit "unexpected nonce_rollback condition")

/-- Rent of an account that is new, or has not been looked at since epoch 0. -/
def collectIfNew (key : Pubkey) (account : BankAccount) : BankAccount × Nat :=
  if account.rentEpoch = 0 then
    env.rentCollector.collectFromCreatedAccount key account env.rentFixEnabled
  else (account, 0)

/-- The body of the loop of `collect_accounts_to_store`: the account to store, if any, and the rent
taken. -/
def storeAt (accounts : List BankAccount) (i : Nat) :
    Except Panic (Option (Pubkey × BankAccount) × Nat) :=
  if message.isNonLoaderKey i = false then .ok (none, 0)
  else
    match prepareIfNonceAccount env (accountAt accounts i) (message.key i) failed rollback with
    | .error e => .error e
    | .ok (account, isNonceAccount) =>
      let isFeePayer := message.feePayerIndex = some i
      if message.isWritable
        i ∧ (failed = false ∨ (rollback.isSome ∧ (isNonceAccount ∨ isFeePayer))) then
        match if failed then rollBack isNonceAccount isFeePayer rollback account
          else .ok account with
        | .error e => .error e
        | .ok account =>
          let (account, rent) := collectIfNew env (message.key i) account
          .ok (some (message.key i, account), rent)
      else .ok (none, 0)

/-- The accounts of a transaction that are stored, and the rent of the transaction with that of new
accounts. -/
def storeAll : Except Panic (List (Pubkey × BankAccount) × Nat) := do
  let stored ← (List.range message.accountKeys.length).mapM
    (storeAt env message failed rollback loaded.accounts)
  .ok (stored.filterMap Prod.fst, loaded.rent + (stored.map Prod.snd).sum)

def collectAccountsToStore (result : Except TransactionError Unit)
    (rollback : Option NonceRollbackFull) (loaded : LoadedTransaction) :
    Except Panic (List (Pubkey × BankAccount) × Nat) :=
  match result, rollback with
  | .ok (), _ => storeAll env message false rollback loaded
  | .error (.instructionError _ _), some _ => storeAll env message true rollback loaded
  | .error _, _ => .ok ([], loaded.rent)

end

end Panoptes.Runtime
