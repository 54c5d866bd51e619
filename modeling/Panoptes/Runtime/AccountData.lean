import Panoptes.Stake.State

/-!
# Account data as the native programs decode it

The stake program, the vote program and the nonce instructions of the system program each keep a
`bincode` value in the data of the accounts they own.  An account's data is modelled by its length
and the value that was last written to it; data that no program has written is all zeros, and zeros
decode as the first variant of each of the three types.

* `Content`, `AccountData` — the data.
* `AccountData.stakeState`, `AccountData.voteState`, `AccountData.nonceState` — `StateMut::state` at
  the three types.
* `AccountData.setStakeState`, `AccountData.setNonceState` — `StateMut::set_state`, which fails on
  data that is too short.
-/

set_option autoImplicit false

namespace Panoptes.Sdk

/-- The data of a nonce account: `nonce::state::Data`. -/
structure NonceData where
  authority : Pubkey
  blockhash : Hash
  /-- The fee calculator stored with the nonce: its lamports per signature. -/
  lamportsPerSignature : Nat
  deriving DecidableEq, Repr

inductive NonceState where
  | uninitialized
  | initialized (data : NonceData)
  deriving DecidableEq, Repr

/-- The bincode size of `nonce::state::Versions`: two tags, and the data. -/
def NonceState.serializedSize : NonceState → Nat
  | .uninitialized => 4 + 4
  | .initialized _ => 4 + 4 + 72

end Panoptes.Sdk

namespace Panoptes.Runtime

open Lib Sdk StakeProgram
open VoteProgram (VoteState VoteStateVersions MAX_ITEMS)

inductive Content where
  /-- Nothing was written. -/
  | zeroed
  | stake (state : StakeState)
  | vote (state : VoteStateVersions)
  | nonce (state : NonceState)
  /-- Bytes that are none of these. -/
  | other

structure AccountData where
  len : Nat
  content : Content

instance : Inhabited AccountData := ⟨⟨0, .zeroed⟩⟩

/-- The bincode size of a `VoteState0_23_5` without votes and credits: the fields, and prior voters
of 56 bytes each. -/
def ZEROED_VOTE_STATE_SIZE : Nat := 4 + 32 + 32 + 8 + (MAX_ITEMS * 56 + 8) + 32 + 1 + 8 + 1 + 8 + 16

/-- What zeros decode to as a vote state. -/
def zeroedVoteState : VoteStateVersions :=
  .v0235
    { nodePubkey := 0, authorizedVoter := 0, authorizedVoterEpoch := 0, authorizedWithdrawer := 0,
      commission := 0, votes := [], rootSlot := none, epochCredits := [], lastTimestamp := ⟨0, 0⟩ }

namespace AccountData

variable (d : AccountData)

/-- `state()` at `StakeState`.  The data of a nonce account starts with a zero tag too. -/
def stakeState : Option StakeState :=
  match d.content with
  | .stake s => if s.serializedSize ≤ d.len then some s else none
  | .zeroed | .nonce _ =>
    if StakeState.uninitialized.serializedSize ≤ d.len then some .uninitialized else none
  | .vote _ | .other => none

def voteState : Option VoteStateVersions :=
  match d.content with
  | .vote v => some v
  | .zeroed => if ZEROED_VOTE_STATE_SIZE ≤ d.len then some zeroedVoteState else none
  | _ => none

/-- `state()` at `nonce::state::Versions`, converted to the current version. -/
def nonceState : Option NonceState :=
  match d.content with
  | .nonce s => if s.serializedSize ≤ d.len then some s else none
  | .zeroed => if NonceState.uninitialized.serializedSize ≤ d.len then some .uninitialized else none
  | _ => none

def setStakeState (s : StakeState) : Res InstructionError AccountData :=
  if s.serializedSize ≤ d.len then .ok { d with content := .stake s } else fail .accountDataTooSmall

/-- `set_state` at `nonce::state::Versions`. -/
def setNonceState (s : NonceState) : Option AccountData :=
  if s.serializedSize ≤ d.len then some { d with content := .nonce s } else none

theorem stakeState_of_set {d d' : AccountData} {s : StakeState} (h : d.setStakeState s = .ok d') :
    d'.stakeState = some s ∧ d'.len = d.len := by
  obtain ⟨hle, h⟩ := ite_eq_ok.mp h
  cases h
  exact ⟨if_pos hle, rfl⟩

end AccountData

abbrev BankAccount := Account AccountData

abbrev BankLedger := Ledger AccountData

end Panoptes.Runtime

namespace Panoptes.Sdk.Account

open Lib Panoptes.Runtime StakeProgram
open VoteProgram (VoteState)

/-- `StakeState` of an account: `account.state()?`. -/
def state (a : BankAccount) : Res InstructionError StakeState :=
  match a.data.stakeState with
  | some s => .ok s
  | none => fail .invalidAccountData

def setState (a : BankAccount) (s : StakeState) : Res InstructionError BankAccount :=
  match a.data.setStakeState s with
  | .ok data => .ok { a with data }
  | .error e => .error e

/-- `VoteStateVersions` of an account, converted: `account.state()?.convert_to_current()`. -/
def voteState (a : BankAccount) : Res InstructionError VoteState :=
  match a.data.voteState with
  | some v => .ok v.convertToCurrent
  | none => fail .invalidAccountData

theorem state_eq_ok {a : BankAccount} {s : StakeState} :
    a.state = .ok s ↔ a.data.stakeState = some s := by
  unfold state
  cases a.data.stakeState with
  | none => exact ⟨fun h => (nomatch h), fun h => (nomatch h)⟩
  | some s' =>
    refine ⟨fun h => ?_, fun h => ?_⟩
    · cases h
      rfl
    · cases h
      rfl

/-- **Writing a state** changes the content of the data and nothing else, and is read back. -/
theorem setState_eq_ok {a a' : BankAccount} {s : StakeState} (h : a.setState s = .ok a') :
    a'.data.stakeState = some s ∧ a'.data.len = a.data.len ∧ a'.lamports = a.lamports ∧
      a'.owner = a.owner := by
  unfold setState at h
  split at h
  · rename_i data hset
    cases h
    exact ⟨(AccountData.stakeState_of_set hset).1, (AccountData.stakeState_of_set hset).2, rfl, rfl⟩
  · cases h

end Panoptes.Sdk.Account
