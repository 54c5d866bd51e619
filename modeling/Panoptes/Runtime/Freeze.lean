import Panoptes.Runtime.BankState
import Panoptes.Runtime.RentCollector
import Panoptes.Runtime.RentPartitions

/-!
# Freezing a bank

`Bank::freeze` of `runtime/src/bank.rs`: rent is collected from the accounts of the bank's
partitions, the fees go to the collector, the rent goes to the validators, the slot history is
written, and the incinerator is emptied.  Metrics and the hash of the bank are not modelled.

* `collectRentEagerly`, `collectFees`, `distributeRent`, `updateSlotHistory`, `runIncinerator` — the
  steps.
* `distributeRentToValidators` — shares by stake, and one lamport more for the largest stakes until
  nothing is left over.
* `freeze` — all of them.
-/

set_option autoImplicit false

namespace Panoptes.Sdk

open Lib

/-- A percentage of an amount, and the rest: `FeeRateGovernor::burn` and `Rent::calculate_burn`. -/
def burnPortion (o : Overflow) (percent amount : Nat) : Except Panic (Nat × Nat) := do
  let product ← mulU64 o amount percent
  let burned := product / 100
  let rest ← subU64 o amount burned
  .ok (burned, rest)

/-- `Rent::calculate_burn`: what is burned, and what is distributed. -/
def Rent.calculateBurn (o : Overflow) (r : Rent) (rentCollected : Nat) : Except Panic (Nat × Nat) :=
  burnPortion o r.burnPercent rentCollected

/-- `SysvarS1otHistory11111111111111111111111111`. -/
def SLOT_HISTORY_ID : Pubkey := 0x06a7d517192f0aafc875e2e184577c5069cfc84649e3eb92782f958d48000000

end Panoptes.Sdk

namespace Panoptes.Runtime

open Lib Sdk

/-- What freezing reads of a bank besides its state. -/
structure FreezeEnv extends StoreFeatures where
  rentCycle : RentCycle
  rentCollector : RentCollector
  /-- The percentage of the fees that the fee rate governor burns. -/
  feeBurnPercent : Nat
  collectorId : Pubkey
  lazyRentCollection : Bool
  noOverflowRentDistributionEnabled : Bool
  /-- The slot history as the parent has it. -/
  parentSlotHistory : Option BankAccount
  /-- The slot history with the slot of the bank, by `bincode`; none if the account does not
  decode. -/
  addSlot : Option AccountData → Option AccountData

namespace FreezeEnv

variable (o : Overflow) (env : FreezeEnv)

/-! ## Rent of a partition -/

/-- The accounts that `load_to_collect_rent_eagerly` finds, in the order of their keys. -/
def accountsInRange (accounts : BankLedger) (range : Pubkey × Pubkey) :
    List (Pubkey × BankAccount) :=
  accounts.toList.filter fun entry =>
    decide (range.1 ≤ entry.1) && decide (entry.1 ≤ range.2) && decide (0 < entry.2.lamports)

/-- The body of the loop of `collect_rent_in_partition`: the bank, and the rent so far. -/
def collectRentFrom (s : BankState × Nat) (entry : Pubkey × BankAccount) :
    Except Panic (BankState × Nat) := do
  let (account, collected) := env.rentCollector.collectFromExistingAccount entry.1 entry.2
    env.rentCycle.cumulativeRentRelatedFixesEnabled
  let rent ← addU64 o s.2 collected
  let b ← s.1.storeAccount o env.toStoreFeatures entry.1 account
  .ok (b, rent)

variable (b : BankState)

def collectRentInPartition (partition : Partition) : Except Panic BankState := do
  let range ← pubkeyRangeFromPartition partition
  let (b, rent) ← (accountsInRange b.accounts range).foldlM (env.collectRentFrom o) (b, 0)
  .ok { b with collectedRent := wrapAdd b.collectedRent rent }

def collectRentEagerly : Except Panic BankState :=
  if env.lazyRentCollection then .ok b
  else do
    let partitions ← env.rentCycle.rentCollectionPartitions o
    partitions.foldlM (env.collectRentInPartition o) b

/-! ## Fees -/

/-- `deposit`: the bank, and the balance of the account. -/
def deposit (pubkey : Pubkey) (lamports : Nat) : Except Panic (BankState × Nat) := do
  let account := b.getAccountOrDefault pubkey
  -- Without the fixes, rent is collected as if the account existed since its rent epoch.
  let (account, collected) :=
    if env.rentCycle.cumulativeRentRelatedFixesEnabled then (account, 0)
    else env.rentCollector.collectFromExistingAccount pubkey account false
  let balance ← addU64 o account.lamports lamports
  let b := { b with collectedRent := wrapAdd b.collectedRent collected }
  let b ← b.storeAccount o env.toStoreFeatures pubkey { account with lamports := balance }
  .ok (b, balance)

def collectFees : Except Panic BankState :=
  if b.collectorFees ≠ 0 then do
    let (burned, unburned) ← burnPortion o env.feeBurnPercent b.collectorFees
    let (b, postBalance) ← env.deposit o b env.collectorId unburned
    let rewards :=
      if unburned ≠ 0 then b.rewards ++ [(env.collectorId, ⟨.fee, asI64 unburned, postBalance⟩)]
        else b.rewards
    .ok { b with rewards, capitalization := wrapSub b.capitalization burned }
  else .ok b

/-! ## Rent -/

/-- The node of a vote account, if its state can be read. -/
def nodePubkey (data : AccountData) : Option Pubkey :=
  data.voteState.map fun v => v.convertToCurrent.nodePubkey

def stakedVotes (votes : List (Pubkey × Nat × AccountData)) : List (Pubkey × Nat × AccountData) :=
  votes.filter fun v => v.2.1 ≠ 0

/-- The nodes of the vote accounts with stake whose state can be read. -/
def validatorStakes (votes : List (Pubkey × Nat × AccountData)) : List (Pubkey × Nat) :=
  (stakedVotes votes).filterMap fun v => (nodePubkey v.2.2).map fun node => (node, v.2.1)

/-- Largest stakes first, then largest keys. -/
def stakeOrder (a b : Pubkey × Nat) : Prop := b.2 < a.2 ∨ (b.2 = a.2 ∧ b.1 ≤ a.1)

instance : DecidableRel stakeOrder := fun a b => by
  unfold stakeOrder
  infer_instance

instance : Std.Total stakeOrder := ⟨fun a b => by grind [stakeOrder]⟩

instance : IsTrans _ stakeOrder := ⟨fun a b c => by grind [stakeOrder]⟩

instance : Std.Antisymm stakeOrder := ⟨fun a b => by grind [stakeOrder]⟩

def rentShare (rentToBeDistributed totalStaked staked : Nat) : Except Panic Nat :=
  if env.noOverflowRentDistributionEnabled = false then do
    let product ← mulU64 o staked rentToBeDistributed
    .ok (((F64.ofNat product).div (F64.ofNat totalStaked)).toU64)
  else if totalStaked = 0 then .error (.explicit "attempt to divide by zero")
  else
    let share := staked * rentToBeDistributed / totalStaked
    if share < U64 then .ok share else .error .unwrapNone

def rentShares (rentToBeDistributed totalStaked : Nat) (stakes : List (Pubkey × Nat)) :
    Except Panic (List (Pubkey × Nat)) :=
  stakes.mapM fun (pubkey, staked) => do
    let share ← env.rentShare o rentToBeDistributed totalStaked staked
    .ok (pubkey, share)

/-- What a validator is paid, one lamport more while some are left over, and what is then left
over. -/
def rentToBePaid (rentShare leftover : Nat) : Except Panic (Nat × Nat) :=
  if 0 < leftover then do
    let paid ← addU64 o rentShare 1
    .ok (paid, leftover - 1)
  else .ok (rentShare, leftover)

/-- A validator is paid: the bank, and what is left over. -/
def payRent (s : BankState × Nat) (share : Pubkey × Nat) : Except Panic (BankState × Nat) := do
  let (b, leftover) := s
  let (pubkey, rentShare) := share
  let (paid, leftover) ← rentToBePaid o rentShare leftover
  if env.noOverflowRentDistributionEnabled = false ∨ 0 < paid then do
    let account := b.getAccountOrDefault pubkey
    let balance ← addU64 o account.lamports paid
    let b ← b.storeAccount o env.toStoreFeatures pubkey { account with lamports := balance }
    .ok ({ b with rewards := b.rewards ++ [(pubkey, ⟨.rent, asI64 paid, balance⟩)] }, leftover)
  else .ok (b, leftover)

def distributeRentToValidators (votes : List (Pubkey × Nat × AccountData))
    (rentToBeDistributed : Nat) : Except Panic BankState := do
  -- The stake of an account whose state cannot be read counts here.
  let totalStaked ← sumU64 o ((stakedVotes votes).map fun v => v.2.1).sum
  assert (validatorStakes votes ≠ [])
  let shares ← env.rentShares o rentToBeDistributed totalStaked
    ((validatorStakes votes).insertionSort stakeOrder)
  let distributed ← sumU64 o (shares.map Prod.snd).sum
  let leftover ← subU64 o rentToBeDistributed distributed
  let (b, leftover) ← shares.foldlM (env.payRent o) (b, leftover)
  if env.noOverflowRentDistributionEnabled then do
    assert (leftover = 0)
    .ok b
  else if leftover ≠ 0 then .ok { b with capitalization := wrapSub b.capitalization leftover }
  else .ok b

def distributeRent : Except Panic BankState := do
  let (burnedPortion, rentToBeDistributed) ← env.rentCollector.rent.calculateBurn o b.collectedRent
  let b := { b with capitalization := wrapSub b.capitalization burnedPortion }
  if rentToBeDistributed = 0 then .ok b
  else env.distributeRentToValidators o b b.stakes.votesView.toList rentToBeDistributed

/-! ## Sysvar and incinerator -/

def updateSlotHistory : Except Panic BankState := do
  let data ← unwrap (env.addSlot (env.parentSlotHistory.map Account.data))
  b.updateSysvarAccount o env.toStoreFeatures SLOT_HISTORY_ID env.parentSlotHistory data

def runIncinerator : Except Panic BankState :=
  match b.getAccountModifiedSinceParent INCINERATOR_ID with
  | some account =>
    { b with capitalization := wrapSub b.capitalization account.lamports }.storeAccount o
      env.toStoreFeatures
      INCINERATOR_ID default
  | none => .ok b

/-- `freeze`: nothing happens to a bank that has a hash. -/
def freeze : Except Panic BankState :=
  if b.frozen then .ok b
  else do
    let b ← env.collectRentEagerly o b
    let b ← env.collectFees o b
    let b ← env.distributeRent o b
    let b ← env.updateSlotHistory o b
    let b ← env.runIncinerator o b
    .ok { b with freezeStarted := true, frozen := true }

end FreezeEnv

end Panoptes.Runtime
