import Panoptes.Runtime.Accounts

/-!
# Committing transactions

`commit_transactions` of `runtime/src/bank.rs` on a batch that was loaded from the bank and
executed.  What a program does to the accounts it was given is an arbitrary function.  Transaction
counts, the status cache and the stakes cache are not part of this.

* `Entry`, `execute` — a checked transaction with its outcome, loaded and executed.
* `commitTransactions` — the accounts are stored, rent is collected, then the fees.
-/

set_option autoImplicit false

namespace Panoptes.Runtime

open Lib Sdk

structure Bank where
  accounts : BankLedger
  collectedRent : Nat
  collectorFees : Nat

/-- A checked transaction, and what its execution does with the loaded accounts. -/
structure Entry extends CheckedTransaction where
  outcome : List BankAccount → Option (Nat × InstructionError) × List BankAccount

structure Executed where
  tx : Transaction
  loaded : Except TransactionError LoadedTransaction
  result : Except TransactionError Unit
  rollback : Option NonceRollbackFull

/-- The result of a transaction whose instructions were processed. -/
def resultOf : Option (Nat × InstructionError) → Except TransactionError Unit
  | none => .ok ()
  | some (index, e) => .error (.instructionError index e)

variable (env : BankEnv) (l : BankLedger)

/-- A transaction of `load_and_execute_transactions`. -/
def execute (e : Entry) : Executed :=
  match loadTransaction env l e.toCheckedTransaction with
  | .error err => ⟨e.tx, .error err, .error err, none⟩
  | .ok (loaded, rollback) =>
    let (failure, accounts) := e.outcome loaded.accounts
    ⟨e.tx, .ok { loaded with accounts }, resultOf failure, rollback⟩

/-- What a transaction has stored, and its rent. -/
def Executed.store (env : BankEnv) (x : Executed) :
    Except Panic (List (Pubkey × BankAccount) × Nat) :=
  match x.loaded with
  | .error _ => .ok ([], 0)
  | .ok loaded => collectAccountsToStore env x.tx.message x.result x.rollback loaded

/-- The rent that `collect_rent` counts: of transactions that succeeded. -/
def Executed.countedRent (x : Executed) (rent : Nat) : Nat :=
  match x.result, x.loaded with
  | .ok (), .ok _ => rent
  | _, _ => 0

def withdraw (pubkey : Pubkey) (lamports : Nat) : Except TransactionError BankLedger :=
  let account := l.get pubkey
  -- An account without lamports is not found.
  if account.lamports = 0 then .error .accountNotFound
  else
    let minBalance :=
      if getSystemAccountKind account = some .nonce then minBalance env .nonce else 0
    if account.lamports < wrapAdd lamports minBalance then .error .insufficientFundsForFee
    else .ok (l.set pubkey { account with lamports := wrapSub account.lamports lamports })

/-- The body of the loop of `filter_program_errors_and_collect_fee`: the accounts, the fee, and the
result. -/
def collectFee (x : Executed) : BankLedger × Nat × Except TransactionError Unit :=
  match feeOf env x.tx.message (x.rollback.map NonceRollbackFull.nonceAccount) with
  | none => (l, 0, .error .blockhashNotFound)
  | some fee =>
    match x.result with
    | .error (.instructionError _ _) =>
      -- The accounts of a durable nonce were stored with the fee taken; others were not stored.
      if x.rollback.isSome then (l, fee, .ok ())
      else
        match withdraw env l (x.tx.message.key 0) fee with
        | .error e => (l, 0, .error e)
        | .ok l => (l, fee, .ok ())
    | .ok () => (l, fee, .ok ())
    | .error e => (l, 0, .error e)

/-- `filter_program_errors_and_collect_fee`: the accounts, the sum of the fees, and the results. -/
def filterProgramErrorsAndCollectFee (env : BankEnv) :
    BankLedger → List Executed → BankLedger × Nat × List (Except TransactionError Unit)
  | l, [] => (l, 0, [])
  | l, x :: rest =>
    let (l, fee, result) := collectFee env l x
    let (l, fees, results) := filterProgramErrorsAndCollectFee env l rest
    (l, fee + fees, result :: results)

/-- `commit_transactions`: the bank, and the results of the fee collection. -/
def commitTransactions (env : BankEnv) (b : Bank) (batch : List Entry) :
    Except Panic (Bank × List (Except TransactionError Unit)) := do
  let executed := batch.map (execute env b.accounts)
  let stored ← executed.mapM (Executed.store env)
  let l := b.accounts.setAll (stored.flatMap Prod.fst)
  let rent := ((executed.zip stored).map fun (x, s) => x.countedRent s.2).sum
  let (l, fees, results) := filterProgramErrorsAndCollectFee env l executed
  .ok (⟨l, (b.collectedRent + rent) % U64, (b.collectorFees + fees) % U64⟩, results)

end Panoptes.Runtime
