import Panoptes.Runtime.AccountLocks
import Panoptes.Runtime.BlockhashQueue
import Panoptes.Runtime.Commit
import Panoptes.Runtime.StatusCache

/-!
# Batches of transactions

`runtime/src/bank.rs`: a batch is locked, checked, loaded, executed and committed.  Each step has a
vector of results in the iteration order of the batch, and the next one pairs it with the
transactions again.

The programs are functions of what is loaded.  The cache of stakes, logs, recorded instructions and
balances are not part of this.

* `checkTransactions` — `check_age`, `check_signatures`, `filter_by_vote_transactions`.
* `loadAccounts`, `loadAndExecuteTransactions` — copies of the accounts, and what programs do to
  them.
* `commitBatch` — the accounts are stored, rent is collected, statuses are recorded, fees are
  collected.
* `processBatch` — `prepare_batch` and `load_execute_and_commit_transactions`.
-/

set_option autoImplicit false

namespace Panoptes.Runtime

open Lib Sdk
open Std (ExtTreeSet)

/-- What a bank reads, and does not change, when it processes transactions. -/
structure BankConfig where
  slot : Nat
  ancestors : ExtTreeSet Nat
  rentCollector : RentCollector
  instructionsSysvarEnabled : Bool
  secp256k1ProgramEnabled : Bool
  fixRecentBlockhashesSysvarDelay : Bool
  rentFixEnabled : Bool
  /-- Only votes are permitted. -/
  upgradeEpoch : Bool
  isSimpleVoteTransaction : Transaction → Bool
  /-- What `insert` draws for the slices of a blockhash. -/
  keyIndex : Hash → Nat
  /-- Whether the programs of a message and their loaders are found. -/
  loaders : BankLedger → Message → Except TransactionError Unit
  /-- `process_message`: the failure, if any, and the accounts afterwards. -/
  processMessage : BankLedger → Message → List BankAccount →
    Option (Nat × InstructionError) × List BankAccount

structure WorkingBank where
  accounts : BankLedger
  collectedRent : Nat
  collectorFees : Nat
  locks : LockState
  blockhashQueue : BlockhashQueue
  statusCache : StatusCache (Except TransactionError Unit)
  transactionCount : Nat
  signatureCount : Nat
  isDelta : Bool
  freezeStarted : Bool

abbrev TransactionCheckResult := Except TransactionError Unit × Option NonceRollbackPartial
abbrev TransactionLoadResult := Except TransactionError LoadedTransaction × Option NonceRollbackFull
abbrev TransactionExecutionResult := Except TransactionError Unit × Option NonceRollbackFull

def canCommit : Except TransactionError Unit → Bool
  | .ok () => true
  | .error (.instructionError _ _) => true
  | .error _ => false

namespace WorkingBank

variable (cfg : BankConfig) (b : WorkingBank)

/-- What loading and committing read of the bank. -/
def env : BankEnv where
  rentCollector := cfg.rentCollector
  feeCalculator := b.blockhashQueue.getFeeCalculator
  lastBlockhash := b.blockhashQueue.lastHash.getD 0
  lastLamportsPerSignature :=
    ((b.blockhashQueue.lastHash).bind b.blockhashQueue.getFeeCalculator).getD 0
  instructionsSysvarEnabled := cfg.instructionsSysvarEnabled
  secp256k1ProgramEnabled := cfg.secp256k1ProgramEnabled
  fixRecentBlockhashesSysvarDelay := cfg.fixRecentBlockhashesSysvarDelay
  rentFixEnabled := cfg.rentFixEnabled

def lastBlockhashWithFeeCalculator : Except Panic (Hash × Nat) := do
  let lastHash ← expect "no hash has been set" b.blockhashQueue.lastHash
  let lamportsPerSignature ← unwrap (b.blockhashQueue.getFeeCalculator lastHash)
  .ok (lastHash, lamportsPerSignature)

/-! ## Checks -/

section

variable (txs : List Transaction) (order : Option (List Nat))
  (results : List TransactionCheckResult) (lockResults : List LockResult) (maxAge : Nat)
  (tx : Transaction) (result : TransactionCheckResult)

/-- `get_account`: an account without lamports is not there. -/
def getAccount (pubkey : Pubkey) : Option BankAccount :=
  if (b.accounts.get pubkey).lamports = 0 then none else some (b.accounts.get pubkey)

def checkTxDurableNonce : Option NonceRollbackPartial := do
  let nonceIx ← usesDurableNonce tx
  let noncePubkey ← getNoncePubkeyFromInstruction nonceIx tx
  let account ← b.getAccount noncePubkey
  if verifyNonceAccount account tx.message.recentBlockhash then
    some ⟨noncePubkey, account⟩
  else none

def checkAgeOf (lockResult : LockResult) : TransactionCheckResult :=
  match lockResult with
  | .error e => (.error e, none)
  | .ok () =>
    if b.blockhashQueue.checkHashAge tx.message.recentBlockhash maxAge = some true then
      (.ok (), none)
    else
      match b.checkTxDurableNonce tx with
      | some rollback => (.ok (), some rollback)
      | none => (.error .blockhashNotFound, none)

def checkSignaturesOf : TransactionCheckResult :=
  match tx.signatures with
  | [] => result
  | signature :: _ =>
    if result.1.toBool ∧
        (b.statusCache.getSignatureStatus signature tx.message.recentBlockhash
          cfg.ancestors).isSome then
      (.error .duplicateSignature, none)
    else result

def filterByVoteOf : TransactionCheckResult :=
  if result.1.toBool then
    if cfg.isSimpleVoteTransaction tx then result else (.error .clusterMaintenance, result.2)
  else result

def checkAge : Except Panic (List TransactionCheckResult) :=
  zipOrdered txs order lockResults (b.checkAgeOf maxAge)

def checkSignatures : Except Panic (List TransactionCheckResult) :=
  zipOrdered txs order results (b.checkSignaturesOf cfg)

def filterByVoteTransactions : Except Panic (List TransactionCheckResult) :=
  zipOrdered txs order results (filterByVoteOf cfg)

def checkTransactions : Except Panic (List TransactionCheckResult) := do
  let ageResults ← b.checkAge txs order lockResults maxAge
  let sigcheckResults ← b.checkSignatures cfg txs order ageResults
  if cfg.upgradeEpoch then filterByVoteTransactions cfg txs order sigcheckResults
    else .ok sigcheckResults

end

/-! ## Loading and execution -/

section

variable (txs : List Transaction) (order : Option (List Nat)) (tx : Transaction)

/-- One transaction of `load_accounts`. -/
def loadOf : TransactionCheckResult → TransactionLoadResult
  | (.error e, _) => (.error e, none)
  | (.ok (), rollback) =>
    match feeOf (b.env cfg) tx.message (rollback.map NonceRollbackPartial.nonceAccount) with
    | none => (.error .blockhashNotFound, none)
    | some fee =>
      match loadTxAccounts (b.env cfg) b.accounts tx fee with
      | .error e => (.error e, none)
      | .ok loaded =>
        match cfg.loaders b.accounts tx.message with
        | .error e => (.error e, none)
        | .ok () =>
          match rollback with
          | none => (.ok loaded, none)
          | some rollback =>
            match NonceRollbackFull.fromPartial rollback tx.message loaded.accounts with
            | .error e => (.error e, none)
            | .ok rollback => (.ok loaded, some rollback)

def loadAccounts (results : List TransactionCheckResult) :
    Except Panic (List TransactionLoadResult) :=
  zipOrdered txs order results (b.loadOf cfg)

/-- The execution of one transaction: its accounts afterwards, and its result. -/
def executeOf : TransactionLoadResult → TransactionLoadResult × TransactionExecutionResult
  | (.error e, rollback) => ((.error e, rollback), (.error e, none))
  | (.ok loaded, rollback) =>
    let (failure, accounts) := cfg.processMessage b.accounts tx.message loaded.accounts
    ((.ok { loaded with accounts }, rollback), (resultOf failure, rollback))

def signaturesOf (loaded : TransactionLoadResult) : Nat :=
  match loaded.1 with
  | .ok _ => tx.message.header.numRequiredSignatures
  | .error _ => 0

/-- What `load_and_execute_transactions` returns. -/
structure LoadedAndExecuted where
  loaded : List TransactionLoadResult
  executed : List TransactionExecutionResult
  txCount : Nat
  signatureCount : Nat

/-- `load_and_execute_transactions`.  The transactions that succeed are counted next to the
transactions in their own order. -/
def loadAndExecuteTransactions (lockResults : List LockResult)
    (maxAge : Nat) : Except Panic LoadedAndExecuted := do
  let sigResults ← b.checkTransactions cfg txs order lockResults maxAge
  let loadedAccounts ← b.loadAccounts cfg txs order sigResults
  let signatures ← zipOrdered txs order loadedAccounts signaturesOf
  let results ← zipOrdered txs order loadedAccounts (b.executeOf cfg)
  let executed := results.map Prod.snd
  let txCount := (executed.zip txs).countP fun p => p.1.1.toBool
  .ok ⟨results.map Prod.fst, executed, txCount, signatures.sum⟩

end

/-! ## Commit -/

section

variable (txs : List Transaction) (order : Option (List Nat)) (maxAge : Nat)
  (executed : List TransactionExecutionResult) (tx : Transaction)
  (result : TransactionExecutionResult)

/-- One transaction of `collect_accounts_to_store`: the accounts to store, and what is loaded with
all of its rent. -/
def collectOf (loaded : TransactionLoadResult) (result : TransactionExecutionResult) :
    Except Panic (List (Pubkey × BankAccount) × TransactionLoadResult) :=
  match loaded.1 with
  | .error _ => .ok ([], loaded)
  | .ok acc => do
    let (accounts, rent) ← collectAccountsToStore (b.env cfg) tx.message result.1 result.2 acc
    .ok (accounts, (.ok { acc with rent }, loaded.2))

def storeAccounts (loaded : List TransactionLoadResult) :
    Except Panic (BankLedger × List TransactionLoadResult) := do
  let items ← orderedIterator txs order
  let stored ← (loaded.zip items).zipIdx.mapM fun p =>
    index executed p.2 >>= fun result => b.collectOf cfg p.1.2.2 p.1.1 result
  .ok (b.accounts.setAll (stored.flatMap Prod.fst), stored.map Prod.snd)

def rentOf (loaded : TransactionLoadResult) (result : TransactionExecutionResult) : Nat :=
  match result.1, loaded.1 with
  | .ok (), .ok acc => acc.rent
  | _, _ => 0

def collectRent (loaded : List TransactionLoadResult) : Except Panic Nat := do
  let rents ← loaded.zipIdx.mapM fun p => index executed p.2 >>=
    fun result => .ok (rentOf p.1 result)
  .ok rents.sum

/-- The status of one transaction is recorded, if it is committed. -/
def recordStatus (c : StatusCache (Except TransactionError Unit)) (tx : Transaction)
    (result : TransactionExecutionResult) : StatusCache (Except TransactionError Unit) :=
  match tx.signatures with
  | [] => c
  | signature :: _ =>
    if canCommit result.1 then
      c.insert cfg.keyIndex tx.message.recentBlockhash signature cfg.slot result.1
    else c

def updateTransactionStatuses : Except Panic (StatusCache (Except TransactionError Unit)) := do
  let items ← orderedIterator txs order
  items.zipIdx.foldlM
    (fun c p => index executed p.2 >>= fun result => .ok (recordStatus cfg c p.1.2 result))
    b.statusCache

/-- The fee of one transaction; its accounts are not looked at. -/
def executedOf : Executed :=
  ⟨tx, .ok ⟨[], 0⟩, result.1, result.2⟩

structure TransactionResults where
  feeCollectionResults : List (Except TransactionError Unit)
  executionResults : List TransactionExecutionResult

def commitBatch (loaded : List TransactionLoadResult)
    (executed : List TransactionExecutionResult) (txCount signatureCount : Nat) :
    Except Panic (WorkingBank × TransactionResults) := do
  assert (b.freezeStarted = false)
  let _ ← b.lastBlockhashWithFeeCalculator
  let (accounts, loaded) ← b.storeAccounts cfg txs order executed loaded
  let rent ← collectRent executed loaded
  let statusCache ← b.updateTransactionStatuses cfg txs order executed
  let executions ← zipOrdered txs order executed executedOf
  let (accounts, fees, feeCollectionResults) :=
    filterProgramErrorsAndCollectFee (b.env cfg) accounts executions
  .ok ({ b with
    accounts
    collectedRent := (b.collectedRent + rent) % U64
    collectorFees := (b.collectorFees + fees) % U64
    statusCache
    transactionCount := (b.transactionCount + txCount) % U64
    signatureCount := (b.signatureCount + signatureCount) % U64
    isDelta := b.isDelta || executed.any fun result => canCommit result.1 },
      ⟨feeCollectionResults, executed⟩)

def loadExecuteAndCommitTransactions (lockResults : List LockResult) (maxAge : Nat) :
    Except Panic (WorkingBank × TransactionResults) := do
  let r ← b.loadAndExecuteTransactions cfg txs order lockResults maxAge
  b.commitBatch cfg txs order r.loaded r.executed r.txCount r.signatureCount

def prepareBatch : Except Panic (List LockResult × WorkingBank) := do
  let (lockResults, locks) ← b.locks.lockAccounts txs order
  assert (lockResults.length = txs.length)
  .ok (lockResults, { b with locks })

/-- A batch that is prepared, executed and committed. -/
def processBatch : Except Panic (WorkingBank × TransactionResults) := do
  let (lockResults, b) ← b.prepareBatch txs order
  b.loadExecuteAndCommitTransactions cfg txs order lockResults maxAge

end

end WorkingBank

end Panoptes.Runtime
