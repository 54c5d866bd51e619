import Panoptes.Vote.Eligibility
import Panoptes.Vote.VoteState

/-!
# The vote program

The instructions of `programs/vote/src/vote_state/mod.rs` on one vote account.  Each reads the state
of the account, works on a copy and writes the copy back at its end, so an account is only changed
through `setState`.

* `VoteStateVersions` — the two layouts of the account data, with their bincode size.
* `VoteAccount` — the account: its balance, its data as decoded, and the bytes allocated for it.
* `initializeAccount`, `authorize`, `updateValidatorIdentity`, `updateCommission`, `withdraw`,
  `processVote` — the instructions.
* `VoteInstruction`, `processInstruction` — their dispatch.
* `VoteAccount.store_error` — an instruction that fails leaves the account as it was.
-/

set_option autoImplicit false

namespace Panoptes.VoteProgram

open Lib Sdk VoteState

/-- The instruction errors the vote program returns. -/
inductive InstructionError where
  | invalidAccountData
  | accountDataTooSmall
  | insufficientFunds
  | missingRequiredSignature
  | accountAlreadyInitialized
  | uninitializedAccount
  | custom (code : Nat)
  deriving DecidableEq, Repr

/-- A `VoteError` as an instruction error: its number in the enumeration. -/
def VoteError.into : VoteError → InstructionError
  | .voteTooOld => .custom 0
  | .slotsMismatch => .custom 1
  | .slotHashMismatch => .custom 2
  | .emptySlots => .custom 3
  | .timestampTooOld => .custom 4
  | .tooSoonToReauthorize => .custom 5

/-! ## The account data -/

/-- `VoteState0_23_5`, less the prior voters, which a conversion drops. -/
structure VoteState0235 where
  nodePubkey : Pubkey
  authorizedVoter : Pubkey
  authorizedVoterEpoch : Nat
  authorizedWithdrawer : Pubkey
  commission : Nat
  votes : List Lockout
  rootSlot : Option Nat
  epochCredits : List EpochCredits
  lastTimestamp : BlockTimestamp

inductive VoteStateVersions where
  | v0235 (state : VoteState0235)
  | current (state : VoteState)

namespace VoteStateVersions

def convertToCurrent : VoteStateVersions → VoteState
  | .v0235 state =>
    { nodePubkey := state.nodePubkey
      authorizedWithdrawer := state.authorizedWithdrawer
      commission := state.commission
      votes := state.votes
      rootSlot := state.rootSlot
      authorizedVoters := AuthorizedVoters.new state.authorizedVoterEpoch state.authorizedVoter
      priorVoters := CircBuf.default (0, 0, 0)
      epochCredits := state.epochCredits
      lastTimestamp := state.lastTimestamp }
  | .current state => state

def isUninitialized : VoteStateVersions → Bool
  | .v0235 state => decide (state.authorizedVoter = 0)
  | .current state => state.authorizedVoters.isEmpty

end VoteStateVersions

variable (vs : VoteState)

/-- The bincode size of `VoteStateVersions::Current`: a tag of four bytes and the fields, with
eight bytes for the length of each sequence and one for the tag of the optional root. -/
def VoteState.serializedSize : Nat :=
  4 + 32 + 32 + 1
    + (8 + 12 * vs.votes.length)
    + (if vs.rootSlot.isSome then 1 + 8 else 1)
    + (8 + (8 + 32) * vs.authorizedVoters.authorizedVoters.size)
    + (MAX_ITEMS * (32 + 8 + 8) + 8 + 1)
    + (8 + 24 * vs.epochCredits.length)
    + (8 + 8)

/-- `get_max_sized_vote_state`, for the random keys it draws. -/
def getMaxSizedVoteState (newRand : Nat → Pubkey) : VoteState :=
  { default with
    votes := List.replicate MAX_LOCKOUT_HISTORY ⟨0, 0⟩
    rootSlot := some (U64 - 1)
    epochCredits := List.replicate MAX_EPOCH_CREDITS_HISTORY ⟨0, 0, 0⟩
    authorizedVoters := (List.range (MAX_LEADER_SCHEDULE_EPOCH_OFFSET + 1)).foldl
      (fun av i => av.insert i (newRand i)) AuthorizedVoters.default }

def VoteState.sizeOf : Nat := (getMaxSizedVoteState fun _ => 0).serializedSize

/-- A vote account: the data as `bincode` decodes it, if it does, and its length in bytes. -/
structure VoteAccount where
  lamports : Nat
  data : Option VoteStateVersions
  dataLen : Nat

open VoteAccount

variable {a : VoteAccount} {fault : Fault InstructionError}

namespace VoteAccount

def state (a : VoteAccount) : Res InstructionError VoteStateVersions :=
  match a.data with
  | some versioned => .ok versioned
  | none => .error (.error .invalidAccountData)

/-- `State::set_state` of a current state: what is written is what is read back. -/
def setState (a : VoteAccount) (vs : VoteState) : Res InstructionError Unit × VoteAccount :=
  if vs.serializedSize > a.dataLen then (.error (.error .accountDataTooSmall), a)
  else (.ok (), { a with data := some (.current vs) })

/-- Write back the copy an instruction worked on, unless it failed. -/
def store (a : VoteAccount) : Res InstructionError VoteState →
    Res InstructionError Unit × VoteAccount
  | .ok vs => a.setState vs
  | .error fault => (.error fault, a)

theorem setState_error {a : VoteAccount} {vs : VoteState} {fault : Fault InstructionError}
    (h : (a.setState vs).1 = .error fault) : (a.setState vs).2 = a := by
  unfold setState at h ⊢
  split at h
  · rename_i hsize
    rw [if_pos hsize]
  · cases h

theorem store_error {r : Res InstructionError VoteState}
    (h : (a.store r).1 = .error fault) : (a.store r).2 = a := by
  cases r with
  | error => rfl
  | ok => exact setState_error h

end VoteAccount

/-! ## The instructions -/

def verifyAuthorizedSigner (authorized : Pubkey) (signers : Finset Pubkey) :
    Res InstructionError Unit :=
  if authorized ∈ signers then .ok () else .error (.error .missingRequiredSignature)

def VoteState.getAndUpdateAuthorizedVoter (currentEpoch : Nat) :
    Except Panic (Option Pubkey × VoteState) := do
  let updated ← vs.authorizedVoters.getAndUpdate currentEpoch
  .ok (some updated.1, { vs with authorizedVoters := updated.2 })

section

variable (a : VoteAccount) (signers : Finset Pubkey) (lamports : Nat) (authorizedPubkey : Pubkey)
  (targetEpoch : Nat)

/-- The end of `set_new_authorized_voter`, once the signer is verified and the target epoch is
free. -/
def VoteState.commitNewAuthorizedVoter : Except Panic VoteState := do
  let latest ← expect
    "Earlier call to `get_and_update_authorized_voter()` guarantees\n            at least the voter for `epoch` exists in the map"
    vs.authorizedVoters.last
  if latest.2 ≠ authorizedPubkey then do
    let epochOfLastAuthorizedSwitch := (vs.priorVoters.last.map (·.2.2)).getD 0
    let _ ← assert (targetEpoch > latest.1)
    .ok { vs with
      priorVoters := vs.priorVoters.append (latest.2, epochOfLastAuthorizedSwitch, targetEpoch)
      authorizedVoters := vs.authorizedVoters.insert targetEpoch authorizedPubkey }
  else .ok { vs with authorizedVoters := vs.authorizedVoters.insert targetEpoch authorizedPubkey }

def VoteState.setNewAuthorizedVoter (currentEpoch targetEpoch : Nat)
    (verify : Pubkey → Res InstructionError Unit) : Res InstructionError VoteState := do
  let updated ← liftPanic (vs.getAndUpdateAuthorizedVoter currentEpoch)
  let epochAuthorizedVoter ← liftPanic (expect
    "the clock epoch is monotonically increasing, so authorized voter must be known" updated.1)
  let _ ← verify epochAuthorizedVoter
  if updated.2.authorizedVoters.contains targetEpoch then
    .error (.error (VoteError.into .tooSoonToReauthorize))
  else liftPanic (updated.2.commitNewAuthorizedVoter authorizedPubkey targetEpoch)

inductive VoteAuthorize where
  | voter
  | withdrawer
  deriving DecidableEq, Repr

/-- `authorize`.  The clock has room for one more leader schedule epoch, so the addition does not
overflow. -/
def authorize (authorized : Pubkey) (voteAuthorize : VoteAuthorize)
    (signers : Finset Pubkey) (clock : Clock) : Res InstructionError Unit × VoteAccount :=
  a.store do
    let versioned ← a.state
    let vs := versioned.convertToCurrent
    match voteAuthorize with
    | .voter =>
      vs.setNewAuthorizedVoter authorized clock.epoch (clock.leaderScheduleEpoch + 1)
        fun epochAuthorizedVoter => verifyAuthorizedSigner epochAuthorizedVoter signers
    | .withdrawer => do
      let _ ← verifyAuthorizedSigner vs.authorizedWithdrawer signers
      .ok { vs with authorizedWithdrawer := authorized }

def updateValidatorIdentity (nodePubkey : Pubkey) (signers : Finset Pubkey) :
    Res InstructionError Unit × VoteAccount :=
  a.store do
    let versioned ← a.state
    let vs := versioned.convertToCurrent
    let _ ← verifyAuthorizedSigner vs.authorizedWithdrawer signers
    let _ ← verifyAuthorizedSigner nodePubkey signers
    .ok { vs with nodePubkey := nodePubkey }

def updateCommission (commission : Nat) (signers : Finset Pubkey) :
    Res InstructionError Unit × VoteAccount :=
  a.store do
    let versioned ← a.state
    let vs := versioned.convertToCurrent
    let _ ← verifyAuthorizedSigner vs.authorizedWithdrawer signers
    .ok { vs with commission := commission }

def initializeAccount (voteInit : VoteInit) (signers : Finset Pubkey)
    (clock : Clock) : Res InstructionError Unit × VoteAccount :=
  a.store do
    let versioned ← a.state
    if versioned.isUninitialized then do
      let _ ← verifyAuthorizedSigner voteInit.nodePubkey signers
      .ok (new voteInit clock)
    else .error (.error .accountAlreadyInitialized)

/-- Where a withdrawal goes: back to the vote account, or to an account with its own balance. -/
inductive Recipient where
  | self
  | other (lamports : Nat)

/-- Move lamports out of the account; balances are `u64`s that wrap in a release build. -/
def transfer : Recipient → VoteAccount × Recipient
  | .self => ({ a with lamports := wrapAdd (a.lamports - lamports) lamports }, .self)
  | .other balance =>
    ({ a with lamports := a.lamports - lamports }, .other (wrapAdd balance lamports))

/-- The withdraw authority of the account is among the signers. -/
def checkWithdrawer : Res InstructionError Unit := do
  let versioned ← a.state
  verifyAuthorizedSigner versioned.convertToCurrent.authorizedWithdrawer signers

/-- `withdraw`: withdrawing the whole balance deinitializes the account. -/
def withdraw (recipient : Recipient) (signers : Finset Pubkey) :
    Res InstructionError Unit × VoteAccount × Recipient :=
  match checkWithdrawer a signers with
  | .error fault => (.error fault, a, recipient)
  | .ok () =>
    if a.lamports < lamports then (.error (.error .insufficientFunds), a, recipient)
    else if a.lamports = lamports then
      match a.setState default with
      | (.error fault, a') => (.error fault, a', recipient)
      | (.ok (), a') => (.ok (), transfer a' lamports recipient)
    else (.ok (), transfer a lamports recipient)

end

/-- The timestamp of a vote, at the greatest of its slots. -/
def VoteState.processVoteTimestamp (vote : Vote) : Res VoteError VoteState :=
  match vote.timestamp with
  | none => .ok vs
  | some timestamp =>
    match vote.slots.max? with
    | none => .error (.error .emptySlots)
    | some slot => vs.processTimestamp slot timestamp

def processVote (b58 : Base58) (a : VoteAccount) (slotHashes : List SlotHash) (clock : Clock)
    (vote : Vote) (signers : Finset Pubkey) : Res InstructionError Unit × VoteAccount :=
  a.store do
    let versioned ← a.state
    if versioned.isUninitialized then .error (.error .uninitializedAccount)
    else do
      let updated ← liftPanic (versioned.convertToCurrent.getAndUpdateAuthorizedVoter clock.epoch)
      let authorizedVoter ← liftPanic (expect
        "the clock epoch is monotonically increasing, so authorized voter must be known" updated.1)
      let eligible ← liftPanic (processVoteEligible b58 clock slotHashes authorizedVoter)
      if eligible then do
        let _ ← verifyAuthorizedSigner authorizedVoter signers
        let voted ← mapErr VoteError.into (updated.2.processVote vote slotHashes clock.epoch)
        mapErr VoteError.into (voted.processVoteTimestamp vote)
      else .error (.error .uninitializedAccount)

/-! ## Dispatch -/

inductive VoteInstruction where
  | initializeAccount (voteInit : VoteInit)
  | authorize (authorized : Pubkey) (voteAuthorize : VoteAuthorize)
  | vote (vote : Vote)
  | voteSwitch (vote : Vote) (proofHash : Hash)
  | withdraw (lamports : Nat)
  | updateValidatorIdentity
  | updateCommission (commission : Nat)

/-- The accounts an instruction is run with, other than the vote account: the sysvars, the rent rule
(balance and data length to whether the account is exempt), the signers, and the second account as
an address and as a recipient. -/
structure InstructionContext where
  signers : Finset Pubkey
  clock : Clock
  slotHashes : List SlotHash
  isExempt : Nat → Nat → Bool
  key : Pubkey
  recipient : Recipient

def processInstruction (b58 : Base58) (ctx : InstructionContext) (a : VoteAccount) :
    VoteInstruction → Res InstructionError Unit × VoteAccount
  | .initializeAccount voteInit =>
    if ctx.isExempt a.lamports a.dataLen then initializeAccount a voteInit ctx.signers ctx.clock
    else (.error (.error .insufficientFunds), a)
  | .authorize authorized voteAuthorize =>
    authorize a authorized voteAuthorize ctx.signers ctx.clock
  | .vote vote => processVote b58 a ctx.slotHashes ctx.clock vote ctx.signers
  | .voteSwitch vote _ => processVote b58 a ctx.slotHashes ctx.clock vote ctx.signers
  | .withdraw lamports =>
    let result := withdraw a lamports ctx.recipient ctx.signers
    (result.1, result.2.1)
  | .updateValidatorIdentity => updateValidatorIdentity a ctx.key ctx.signers
  | .updateCommission commission => updateCommission a commission ctx.signers

end Panoptes.VoteProgram
