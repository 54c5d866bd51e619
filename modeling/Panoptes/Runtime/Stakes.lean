import Panoptes.Runtime.AccountData

/-!
# The stakes cache

`runtime/src/stakes.rs`: the vote accounts with the stake delegated to each, and the delegations of
the stake accounts, kept as accounts are stored.  Maps are keyed as in the source; sums over them do
not depend on the order.

* `Stakes.store` — an account is stored.
* `Stakes.cloneWithEpoch` — the cache of a bank in a new epoch.
-/

set_option autoImplicit false

namespace Panoptes.StakeProgram

open Lib Sdk
open Std (ExtTreeMap)

def newStakeHistoryEntry (o : Overflow) (epoch : Nat) (stakes : ExtTreeMap Pubkey Delegation)
    (history : Option StakeHistory) (fixStakeDeactivate : Bool) :
    Except Panic StakeHistoryEntry := do
  let state (d : Delegation) := d.stakeActivatingAndDeactivating epoch history fixStakeDeactivate
  let effective ← sumU64 o (mapSum stakes fun _ d => (state d).1)
  let activating ← sumU64 o (mapSum stakes fun _ d => (state d).2.1)
  let deactivating ← sumU64 o (mapSum stakes fun _ d => (state d).2.2)
  .ok { effective, activating, deactivating }

end Panoptes.StakeProgram

namespace Panoptes.Runtime

open Lib Sdk StakeProgram
open Std (ExtTreeMap)

section

def delegationFrom (account : BankAccount) : Option Delegation :=
  account.data.stakeState.bind StakeState.delegation

/-- The stake in effect of the delegations to a vote account. -/
def delegatedTo (delegations : ExtTreeMap Pubkey Delegation) (voter : Pubkey) (epoch : Nat)
    (history : Option StakeHistory) (fixStakeDeactivate : Bool) : Nat :=
  mapSum delegations fun _ d =>
    if d.voterPubkey = voter then d.stakeAt epoch history fixStakeDeactivate else 0

/-- A vote account with the stake delegated to it. -/
abbrev VoteAccounts := ExtTreeMap Pubkey (Nat × BankAccount)

structure Stakes where
  voteAccounts : VoteAccounts
  stakeDelegations : ExtTreeMap Pubkey Delegation
  epoch : Nat
  stakeHistory : StakeHistory

variable (o : Overflow) (voteAccounts : VoteAccounts) (voter : Pubkey)

/-- `entry(voter).and_modify(..)` on the stake of a vote account. -/
def modifyStake (f : Nat → Except Panic Nat) : Except Panic VoteAccounts :=
  match voteAccounts[voter]? with
  | some (staked, account) =>
    match f staked with
    | .ok staked => .ok (voteAccounts.insert voter (staked, account))
    | .error e => .error e
  | none => .ok voteAccounts

def removeStake : Option (Pubkey × Nat) → Except Panic VoteAccounts
  | some (voter, stake) => modifyStake voteAccounts voter fun staked => subU64 o staked stake
  | none => .ok voteAccounts

def addStake : Option (Pubkey × Nat) → Except Panic VoteAccounts
  | some (voter, stake) => modifyStake voteAccounts voter fun staked => addU64 o staked stake
  | none => .ok voteAccounts

/-- Exchange the contribution of a stake account for its new one. -/
def adjustStake (oldStake stake : Option (Pubkey × Nat)) : Except Panic VoteAccounts :=
  if stake ≠ oldStake then removeStake o voteAccounts oldStake >>= fun v => addStake o v stake
  else .ok voteAccounts

end

namespace Stakes

variable (o : Overflow) (s : Stakes)

def calculateStake (voter : Pubkey) (epoch : Nat)
    (history : Option StakeHistory) (fixStakeDeactivate : Bool) : Except Panic Nat :=
  sumU64 o (delegatedTo s.stakeDelegations voter epoch history fixStakeDeactivate)

/-- The stakes of all vote accounts, computed again. -/
def refreshVoteAccounts (o : Overflow) (s : Stakes) (nextEpoch : Nat) (history : StakeHistory)
    (fixStakeDeactivate : Bool) : List (Pubkey × Nat × BankAccount) → Except Panic VoteAccounts
  | [] => .ok ∅
  | (pubkey, _, account) :: rest => do
    let stake ← s.calculateStake o pubkey nextEpoch (some history) fixStakeDeactivate
    let refreshed ← s.refreshVoteAccounts o nextEpoch history fixStakeDeactivate rest
    .ok (refreshed.insert pubkey (stake, account))

def cloneWithEpoch (nextEpoch : Nat) (fixStakeDeactivate : Bool) : Except Panic Stakes :=
  if s.epoch = nextEpoch then .ok s
  else do
    -- The history gets an entry for the epoch that ends.
    let entry ← newStakeHistoryEntry o s.epoch s.stakeDelegations (some s.stakeHistory)
      fixStakeDeactivate
    let stakeHistory := s.stakeHistory.add s.epoch entry
    let voteAccounts ← s.refreshVoteAccounts o nextEpoch stakeHistory fixStakeDeactivate
      s.voteAccounts.toList
    .ok { s with voteAccounts, epoch := nextEpoch, stakeHistory }

def isStake (account : BankAccount) : Bool :=
  account.owner =
    VOTE_PROGRAM_ID || (account.owner = STAKE_PROGRAM_ID && StakeState.SIZE ≤ account.data.len)

section

variable (s : Stakes) (pubkey : Pubkey) (account : BankAccount) (fixStakeDeactivate : Bool)

/-- The stake of a vote account that is stored: the one it has, or the sum of what is delegated to
it. -/
def stakeOfVote : Except Panic Nat :=
  match s.voteAccounts[pubkey]? with
  | some (stake, _) => .ok stake
  | none => s.calculateStake o pubkey s.epoch (some s.stakeHistory) fixStakeDeactivate

/-- `store` for an account of the vote program. -/
def storeVote : Except Panic Stakes :=
  if account.lamports ≠ 0 then do
    let stake ← s.stakeOfVote o pubkey fixStakeDeactivate
    .ok { s with voteAccounts := (s.voteAccounts.erase pubkey).insert pubkey (stake, account) }
  else .ok { s with voteAccounts := s.voteAccounts.erase pubkey }

/-- What the stored version of a stake account contributes to which vote account. -/
def oldStake : Option (Pubkey × Nat) :=
  (s.stakeDelegations[pubkey]?).map fun d =>
    (d.voterPubkey, d.stakeAt s.epoch (some s.stakeHistory) fixStakeDeactivate)

/-- What the new version contributes: nothing without lamports, whatever it has delegated. -/
def newStake : Option (Pubkey × Nat) :=
  (delegationFrom account).map fun d =>
    (d.voterPubkey,
      if account.lamports ≠ 0 then d.stakeAt s.epoch (some s.stakeHistory) fixStakeDeactivate
        else 0)

/-- The delegations after a store of a stake account.  One with lamports that is not delegated
leaves the delegation of its last version where it is. -/
def delegationsAfter : ExtTreeMap Pubkey Delegation :=
  if account.lamports = 0 then s.stakeDelegations.erase pubkey
  else match delegationFrom account with
    | some d => s.stakeDelegations.insert pubkey d
    | none => s.stakeDelegations

/-- `store` for an account of the stake program. -/
def storeStake : Except Panic Stakes := do
  let voteAccounts ← adjustStake o s.voteAccounts (s.oldStake pubkey fixStakeDeactivate)
    (s.newStake account fixStakeDeactivate)
  .ok { s with voteAccounts, stakeDelegations := s.delegationsAfter pubkey account }

/-- `store`: the cache, and the vote account that was overwritten. -/
def store : Except Panic (Stakes × Option BankAccount) :=
  if account.owner = VOTE_PROGRAM_ID then do
    let s' ← s.storeVote o pubkey account fixStakeDeactivate
    .ok (s', (s.voteAccounts[pubkey]?).map Prod.snd)
  else if account.owner = STAKE_PROGRAM_ID then do
    let s' ← s.storeStake o pubkey account fixStakeDeactivate
    .ok (s', none)
  else .ok (s, none)

end

end Stakes

end Panoptes.Runtime
