import Panoptes.Sdk.Pubkey
import Panoptes.Stake.Rewards

/-!
# The stake program

The instructions of `programs/stake/src/stake_state.rs` and their dispatch in
`programs/stake/src/stake_instruction.rs`.  An instruction that writes one account is a function on
that account; `split`, `merge` and `withdraw` write two, which may be one and the same, and are
functions on the ledger.  What an instruction that fails has written is discarded by the runtime, so
the result of a failed instruction is its error alone.

* `initialize`, `authorize`, `delegate`, `deactivate`, `setLockup`, `split`, `merge`, `withdraw` —
  the instructions.
* `MergeKind` — which stakes can be merged, and the stake they give.
* `StakeInstruction`, `processInstruction` — their dispatch, with the sysvars an instruction reads.
-/

set_option autoImplicit false

namespace Panoptes.StakeProgram

open Lib Sdk Panoptes.Runtime StakeError
open VoteProgram (VoteState)

def id : Pubkey := STAKE_PROGRAM_ID

/-! ## Instructions on one account -/

def initializeStake (self : BankAccount) (authorized : Authorized) (lockup : Lockup) (rent : Rent) :
    Res InstructionError BankAccount := do
  if self.data.len ≠ StakeState.SIZE then fail .invalidAccountData
  else
    match ← self.state with
    | .uninitialized =>
      let rentExemptReserve := rent.minimumBalance self.data.len
      if rentExemptReserve < self.lamports then
        self.setState (.initialized { rentExemptReserve, authorized, lockup })
      else fail .insufficientFunds
    | _ => fail .invalidAccountData

def authorize (self : BankAccount) (signers : Finset Pubkey) (newAuthority : Pubkey)
    (stakeAuthorize : StakeAuthorize) : Res InstructionError BankAccount := do
  match ← self.state with
  | .stake info stake =>
    let authorized ← info.authorized.authorize signers newAuthority stakeAuthorize
    self.setState (.stake { info with authorized } stake)
  | .initialized info =>
    let authorized ← info.authorized.authorize signers newAuthority stakeAuthorize
    self.setState (.initialized { info with authorized })
  | _ => fail .invalidAccountData

def Stake.new (stake : Nat) (voterPubkey : Pubkey) (voteState : VoteState) (activationEpoch : Nat)
    (config : Config) : Stake where
  delegation := Delegation.new voterPubkey stake activationEpoch config.warmupCooldownRate
  creditsObserved := voteState.credits

/-- `Stake::redelegate`: only a stake that is not in effect can be delegated again. -/
def Stake.redelegate (s : Stake) (stakeLamports : Nat) (voterPubkey : Pubkey)
    (voteState : VoteState)
    (clock : Clock) (history : StakeHistory) (config : Config) : Res InstructionError Stake :=
  if s.delegation.stakeAt clock.epoch (some history) true ≠ 0 then
    fail tooSoonToRedelegate.into
  else
    .ok {
      delegation :=
        { voterPubkey
          stake := stakeLamports
          activationEpoch := clock.epoch
          deactivationEpoch := EPOCH_MAX
          warmupCooldownRate := config.warmupCooldownRate }
      creditsObserved := voteState.credits }

def delegate (self : BankAccount) (voteKey : Pubkey) (voteAccount : BankAccount) (clock : Clock)
    (history : StakeHistory) (config : Config) (signers : Finset Pubkey) :
    Res InstructionError BankAccount := do
  if voteAccount.owner ≠ VOTE_PROGRAM_ID then fail .incorrectProgramId
  else
    match ← self.state with
    | .initialized info =>
      info.authorized.check signers .staker
      let voteState ← voteAccount.voteState
      self.setState (.stake info
        (Stake.new (self.lamports - info.rentExemptReserve) voteKey voteState clock.epoch config))
    | .stake info stake =>
      info.authorized.check signers .staker
      let voteState ← voteAccount.voteState
      let stake ← stake.redelegate (self.lamports - info.rentExemptReserve) voteKey voteState clock
        history config
      self.setState (.stake info stake)
    | _ => fail .invalidAccountData

def Stake.deactivate (s : Stake) (epoch : Nat) : Res InstructionError Stake :=
  if s.delegation.deactivationEpoch ≠ EPOCH_MAX then fail alreadyDeactivated.into
  else .ok { s with delegation := { s.delegation with deactivationEpoch := epoch } }

def deactivate (self : BankAccount) (clock : Clock) (signers : Finset Pubkey) :
    Res InstructionError BankAccount := do
  match ← self.state with
  | .stake info stake =>
    info.authorized.check signers .staker
    let stake ← stake.deactivate clock.epoch
    self.setState (.stake info stake)
  | _ => fail .invalidAccountData

def setLockup (self : BankAccount) (lockup : LockupArgs) (signers : Finset Pubkey) :
    Res InstructionError BankAccount := do
  match ← self.state with
  | .initialized info =>
    let info ← info.setLockup lockup signers
    self.setState (.initialized info)
  | .stake info stake =>
    let info ← info.setLockup lockup signers
    self.setState (.stake info stake)
  | _ => fail .invalidAccountData

/-! ## Instructions on two accounts -/

section

variable (o : Overflow) (lamports : Nat) (l : BankLedger) (key : Pubkey) (n : Nat)

/-- `account.lamports += n`. -/
def addLamports : Res InstructionError BankLedger := do
  let lamports ← liftPanic (addU64 o (l.get key).lamports n)
  .ok (l.set key { l.get key with lamports })

/-- `account.lamports -= n`. -/
def subLamports : Res InstructionError BankLedger := do
  let lamports ← liftPanic (subU64 o (l.get key).lamports n)
  .ok (l.set key { l.get key with lamports })

/-- `keyed_account.set_state(&s)?`. -/
def setStateAt (s : StakeState) : Res InstructionError BankLedger := do
  let a ← (l.get key).setState s
  .ok (l.set key a)

def calculateSplitRentExemptReserve (sourceRentExemptReserve sourceDataLen splitDataLen : Nat) :
    Nat :=
  let lamportsPerByteYear := sourceRentExemptReserve / (sourceDataLen + ACCOUNT_STORAGE_OVERHEAD)
  wrapMul lamportsPerByteYear (splitDataLen + ACCOUNT_STORAGE_OVERHEAD)

/-- `Stake::split`: the stake that remains and the new one. -/
def Stake.split (s : Stake) (remainingStakeDelta splitStakeAmount : Nat) :
    Res InstructionError (Stake × Stake) :=
  if remainingStakeDelta > s.delegation.stake then fail insufficientStake.into
  else
    let remaining :=
      { s with
        delegation := { s.delegation with stake := s.delegation.stake - remainingStakeDelta } }
    .ok (remaining,
      { remaining with delegation := { remaining.delegation with stake := splitStakeAmount } })

/-- The condition both cases of `split` put on a move of less than the whole balance: more than
nothing stays staked, and more than nothing is staked in the new account. -/
def partialSplitShort (selfLamports reserve splitLamports splitReserve : Nat) :
    Except Panic Bool := do
  if lamports ≠ selfLamports then
    let needed ← addU64 o lamports reserve
    .ok (decide (needed ≥ selfLamports) || decide (lamports ≤ splitReserve - splitLamports))
  else .ok false

/-- The first case of `split`: a delegated stake. -/
def splitStake (o : Overflow) (l : BankLedger) (self split : Pubkey) (lamports : Nat) (info : Meta)
    (stake : Stake) : Res InstructionError BankLedger := do
  let selfLamports := (l.get self).lamports
  let splitLamports := (l.get split).lamports
  let splitReserve := calculateSplitRentExemptReserve info.rentExemptReserve (l.get self).data.len
    (l.get split).data.len
  if lamports < splitReserve - splitLamports then fail .insufficientFunds
  else if lamports < splitReserve ∧ lamports = selfLamports then fail .insufficientFunds
  else
    let short ← liftPanic (partialSplitShort o lamports selfLamports info.rentExemptReserve
      splitLamports splitReserve)
    if short then fail .insufficientFunds
    else
      let (remainingStakeDelta, splitStakeAmount) :=
        -- A move of everything stakes no more than was staked, whatever the new account already
        -- holds and whatever its reserve.
        if lamports = selfLamports then
          (lamports - info.rentExemptReserve,
            min (lamports - splitReserve) (lamports - info.rentExemptReserve))
        else (lamports, lamports - (splitReserve - splitLamports))
      let (remaining, splitStake) ← stake.split remainingStakeDelta splitStakeAmount
      let l ← setStateAt l self (.stake info remaining)
      setStateAt l split (.stake { info with rentExemptReserve := splitReserve } splitStake)

/-- The second case of `split`: an account that is not delegated. -/
def splitInitialized (self split : Pubkey) (lamports : Nat)
    (info : Meta) : Res InstructionError BankLedger := do
  let splitReserve := calculateSplitRentExemptReserve info.rentExemptReserve (l.get self).data.len
    (l.get split).data.len
  if lamports < splitReserve then fail .insufficientFunds
  else
    let short ← liftPanic (partialSplitShort o lamports (l.get self).lamports info.rentExemptReserve
      (l.get split).lamports splitReserve)
    if short then fail .insufficientFunds
    else setStateAt l split (.initialized { info with rentExemptReserve := splitReserve })

end

/-- The states after a split, by the state of the source. -/
def splitState (o : Overflow) (l : BankLedger) (self split : Pubkey) (lamports : Nat)
    (signers : Finset Pubkey) : Res InstructionError BankLedger := do
  match ← (l.get self).state with
  | .stake info stake =>
    info.authorized.check signers .staker
    splitStake o l self split lamports info stake
  | .initialized info =>
    info.authorized.check signers .staker
    splitInitialized o l self split lamports info
  | .uninitialized => if self ∉ signers then fail .missingRequiredSignature else .ok l
  | .rewardsPool => fail .invalidAccountData

/-- Deinitialize an account whose whole balance is taken. -/
def deinitializeIfEmptied (l : BankLedger) (key : Pubkey) (lamports : Nat) :
    Res InstructionError BankLedger :=
  if lamports = (l.get key).lamports then setStateAt l key .uninitialized else .ok l

def split (o : Overflow) (l : BankLedger) (self : Pubkey) (lamports : Nat) (split : Pubkey)
    (signers : Finset Pubkey) : Res InstructionError BankLedger := do
  if (l.get split).owner ≠ id then fail .incorrectProgramId
  else
    match ← (l.get split).state with
    | .uninitialized =>
      if lamports > (l.get self).lamports then fail .insufficientFunds
      else
        let l ← splitState o l self split lamports signers
        let l ← deinitializeIfEmptied l self lamports
        let l ← addLamports o l split lamports
        subLamports o l self lamports
    | _ => fail .invalidAccountData

/-! ### Merging -/

inductive MergeKind where
  | inactive (info : Meta) (lamports : Nat)
  | activationEpoch (info : Meta) (stake : Stake)
  | fullyActive (info : Meta) (stake : Stake)
  deriving DecidableEq, Repr

namespace MergeKind

/-- `MergeKind::meta`. -/
def getMeta : MergeKind → Meta
  | inactive info _ => info
  | activationEpoch info _ => info
  | fullyActive info _ => info

def activeStake : MergeKind → Option Stake
  | inactive _ _ => none
  | activationEpoch _ stake => some stake
  | fullyActive _ stake => some stake

/-- `get_if_mergeable`: a stake in transition cannot be merged. -/
def getIfMergeable (a : BankAccount) (clock : Clock) (history : StakeHistory) :
    Res InstructionError MergeKind := do
  match ← a.state with
  | .stake info stake =>
    match stake.delegation.stakeActivatingAndDeactivating clock.epoch (some history) true with
    | (0, 0, 0) => .ok (inactive info a.lamports)
    | (0, _, _) => .ok (activationEpoch info stake)
    | (_, 0, 0) => .ok (fullyActive info stake)
    | _ => fail mergeTransientStake.into
  | .initialized info => .ok (inactive info a.lamports)
  | _ => fail .invalidAccountData

def metasCanMerge (stake source : Meta) : Res InstructionError Unit :=
  if stake.authorized = source.authorized ∧ stake.lockup = source.lockup then .ok ()
  else fail mergeMismatch.into

def activeDelegationsCanMerge (stake source : Delegation) : Res InstructionError Unit :=
  if stake.voterPubkey = source.voterPubkey
      ∧ (stake.warmupCooldownRate.sub source.warmupCooldownRate).abs.lt F64.EPSILON
      ∧ stake.deactivationEpoch = EPOCH_MAX ∧ source.deactivationEpoch = EPOCH_MAX then .ok ()
  else fail mergeMismatch.into

def activeStakesCanMerge (stake source : Stake) : Res InstructionError Unit := do
  activeDelegationsCanMerge stake.delegation source.delegation
  if stake.creditsObserved = source.creditsObserved then .ok ()
  else fail mergeMismatch.into

/-- `stake.delegation.stake += n`. -/
def addStake (o : Overflow) (s : Stake) (n : Nat) : Res InstructionError Stake := do
  let stake ← liftPanic (addU64 o s.delegation.stake n)
  .ok { s with delegation := { s.delegation with stake } }

/-- The check of `MergeKind::merge` on two active stakes. -/
def checkActive (self source : MergeKind) : Res InstructionError Unit :=
  match self.activeStake, source.activeStake with
  | some stake, some source => activeStakesCanMerge stake source
  | _, _ => .ok ()

/-- `MergeKind::merge`: the new state of the destination, if it changes. -/
def merge (o : Overflow) (self source : MergeKind) : Res InstructionError (Option StakeState) := do
  metasCanMerge self.getMeta source.getMeta
  checkActive self source
  match self, source with
  | inactive _ _, inactive _ _ => .ok none
  | inactive _ _, activationEpoch _ _ => .ok none
  | activationEpoch info stake, inactive _ sourceLamports =>
    let stake ← addStake o stake sourceLamports
    .ok (some (.stake info stake))
  | activationEpoch info stake, activationEpoch sourceInfo sourceStake =>
    let sourceLamports ← liftPanic
      (addU64 o sourceInfo.rentExemptReserve sourceStake.delegation.stake)
    let stake ← addStake o stake sourceLamports
    .ok (some (.stake info stake))
  | fullyActive info stake, fullyActive _ sourceStake =>
    -- The reserve of the source is not staked: it would be active at once.
    let stake ← addStake o stake sourceStake.delegation.stake
    .ok (some (.stake info stake))
  | _, _ => fail mergeMismatch.into

end MergeKind

/-- Write the state a merge gives, if it changes. -/
def setMerged (l : BankLedger) (key : Pubkey) : Option StakeState → Res InstructionError BankLedger
  | some merged => setStateAt l key merged
  | none => .ok l

def merge (o : Overflow) (l : BankLedger) (self source : Pubkey) (clock : Clock)
    (history : StakeHistory) (signers : Finset Pubkey) : Res InstructionError BankLedger := do
  if (l.get source).owner ≠ id then fail .incorrectProgramId
  -- Close the self-reference loophole.
  else if source = self then fail .invalidArgument
  else
    let stakeKind ← MergeKind.getIfMergeable (l.get self) clock history
    stakeKind.getMeta.authorized.check signers .staker
    let sourceKind ← MergeKind.getIfMergeable (l.get source) clock history
    let merged ← stakeKind.merge o sourceKind
    let l ← setMerged l self merged
    let l ← setStateAt l source .uninitialized
    let lamports := (l.get source).lamports
    let l ← subLamports o l source lamports
    addLamports o l self lamports

/-! ### Withdrawing -/

/-- The lockup of an account, the lamports it must keep, and whether it is staked. -/
def withdrawTerms (o : Overflow) (self : BankAccount) (key : Pubkey) (clock : Clock)
    (history : StakeHistory) (signers : Finset Pubkey) :
    Res InstructionError (Lockup × Nat × Bool) := do
  match ← self.state with
  | .stake info stake =>
    info.authorized.check signers .withdrawer
    let staked :=
      if clock.epoch ≥ stake.delegation.deactivationEpoch then
        stake.delegation.stakeAt clock.epoch (some history) true
      -- A stake that was not deactivated is taken in full: more of it may be in effect later.
      else stake.delegation.stake
    let reserve ← liftPanic (addU64 o staked info.rentExemptReserve)
    .ok (info.lockup, reserve, decide (staked ≠ 0))
  | .initialized info =>
    info.authorized.check signers .withdrawer
    .ok (info.lockup, info.rentExemptReserve, false)
  | .uninitialized =>
    if key ∉ signers then fail .missingRequiredSignature else .ok (Lockup.default, 0, false)
  | .rewardsPool => fail .invalidAccountData

/-- `condition && lamports + reserve > balance`: the sum is computed only if the condition holds. -/
def exceedsBalance (o : Overflow) (condition : Bool) (lamports reserve balance : Nat) :
    Except Panic Bool :=
  if condition then do
    let needed ← addU64 o lamports reserve
    .ok (decide (needed > balance))
  else .ok false

/-- The checks on the amount of a withdrawal, in the order the source makes them. -/
def checkWithdrawal (o : Overflow) (lamports reserve balance : Nat) (isStaked : Bool) :
    Res InstructionError Unit := do
  let stakedShort ← liftPanic (exceedsBalance o isStaked lamports reserve balance)
  if stakedShort then fail .insufficientFunds
  else
    let short ← liftPanic (exceedsBalance o (decide (lamports ≠ balance)) lamports reserve balance)
    if short then
      liftPanic (assert (isStaked = false))
      fail .insufficientFunds
    else .ok ()

/-- `withdraw` up to its first write. -/
def checkWithdraw (o : Overflow) (l : BankLedger) (self : Pubkey) (lamports : Nat) (clock : Clock)
    (history : StakeHistory) (withdrawAuthority : KeyedAccount) (custodian : Option KeyedAccount) :
    Res InstructionError Unit := do
  match withdrawAuthority.signerKey with
  | none => fail .missingRequiredSignature
  | some withdrawAuthorityPubkey =>
    let (lockup, reserve, isStaked) ← withdrawTerms o (l.get self) self clock history
      {withdrawAuthorityPubkey}
    if lockup.isInForce clock (custodian.bind KeyedAccount.signerKey) then
      fail lockupInForce.into
    else checkWithdrawal o lamports reserve (l.get self).lamports isStaked

def withdraw (o : Overflow) (l : BankLedger) (self : Pubkey) (lamports : Nat) (dest : Pubkey)
    (clock : Clock) (history : StakeHistory) (withdrawAuthority : KeyedAccount)
    (custodian : Option KeyedAccount) : Res InstructionError BankLedger := do
  checkWithdraw o l self lamports clock history withdrawAuthority custodian
  let l ← deinitializeIfEmptied l self lamports
  let l ← subLamports o l self lamports
  addLamports o l dest lamports

/-! ## Dispatch -/

/-- What the sysvar accounts and the config account hold when an instruction runs. -/
structure Sysvars where
  clock : Clock
  stakeHistory : StakeHistory
  rent : Rent
  config : Config

inductive StakeInstruction where
  | initializeStake (authorized : Authorized) (lockup : Lockup)
  | authorize (newAuthorized : Pubkey) (stakeAuthorize : StakeAuthorize)
  | authorizeWithSeed (newAuthorized : Pubkey) (stakeAuthorize : StakeAuthorize)
    (authoritySeed : String)
      (authorityOwner : Pubkey)
  | delegateStake
  | split (lamports : Nat)
  | merge
  | withdraw (lamports : Nat)
  | deactivate
  | setLockup (lockup : LockupArgs)

def nextKeyedAccount : List KeyedAccount → Res InstructionError (KeyedAccount × List KeyedAccount)
  | [] => fail .notEnoughAccountKeys
  | k :: rest => .ok (k, rest)

theorem nextKeyedAccount_eq_ok {keyedAccounts rest : List KeyedAccount} {k : KeyedAccount}
    (h : nextKeyedAccount keyedAccounts = .ok (k, rest)) : keyedAccounts = k :: rest := by
  cases keyedAccounts with
  | nil => cases h
  | cons k' rest' =>
    cases h
    rfl

/-- `from_keyed_account`: the value of a sysvar, if the account is at its address. -/
def fromKeyedAccount {α : Type} (address : Pubkey) (value : α) (keyedAccounts : List KeyedAccount) :
    Res InstructionError (α × List KeyedAccount) := do
  let (k, rest) ← nextKeyedAccount keyedAccounts
  if k.key = address then .ok (value, rest) else fail .invalidArgument

section

-- The hash of `Pubkey::create_with_seed`.
variable (hashv : Pubkey → String → Pubkey → Pubkey)

/-- The signers of `authorize_with_seed`: the address derived from the base, if the base signed. -/
def seedSigners (base : KeyedAccount) (seed : String) (owner : Pubkey) :
    Res InstructionError (Finset Pubkey) :=
  match base.signerKey with
  | none => .ok ∅
  | some basePubkey =>
    if seed.utf8ByteSize > MAX_SEED_LEN then fail (.custom 0) else .ok {hashv basePubkey seed owner}

def processInstruction (o : Overflow) (sysvars : Sysvars) (l : BankLedger)
    (keyedAccounts : List KeyedAccount) (instruction : StakeInstruction) :
    Res InstructionError BankLedger := do
  let signers := KeyedAccount.getSigners keyedAccounts
  let (me, rest) ← nextKeyedAccount keyedAccounts
  if (l.get me.key).owner ≠ id then fail .incorrectProgramId
  else
    match instruction with
    | .initializeStake authorized lockup =>
      let (rent, _) ← fromKeyedAccount RENT_ID sysvars.rent rest
      let a ← initializeStake (l.get me.key) authorized lockup rent
      .ok (l.set me.key a)
    | .authorize newAuthorized stakeAuthorize =>
      let a ← authorize (l.get me.key) signers newAuthorized stakeAuthorize
      .ok (l.set me.key a)
    | .authorizeWithSeed newAuthorized stakeAuthorize seed owner =>
      let (base, _) ← nextKeyedAccount rest
      let seedSigners ← seedSigners hashv base seed owner
      let a ← authorize (l.get me.key) seedSigners newAuthorized stakeAuthorize
      .ok (l.set me.key a)
    | .delegateStake =>
      let (vote, rest) ← nextKeyedAccount rest
      let (clock, rest) ← fromKeyedAccount CLOCK_ID sysvars.clock rest
      let (history, rest) ← fromKeyedAccount STAKE_HISTORY_ID sysvars.stakeHistory rest
      let (config, _) ← fromKeyedAccount STAKE_CONFIG_ID sysvars.config rest
      let a ← delegate (l.get me.key) vote.key (l.get vote.key) clock history config signers
      .ok (l.set me.key a)
    | .split lamports =>
      let (splitStake, _) ← nextKeyedAccount rest
      split o l me.key lamports splitStake.key signers
    | .merge =>
      let (source, rest) ← nextKeyedAccount rest
      let (clock, rest) ← fromKeyedAccount CLOCK_ID sysvars.clock rest
      let (history, _) ← fromKeyedAccount STAKE_HISTORY_ID sysvars.stakeHistory rest
      merge o l me.key source.key clock history signers
    | .withdraw lamports =>
      let (dest, rest) ← nextKeyedAccount rest
      let (clock, rest) ← fromKeyedAccount CLOCK_ID sysvars.clock rest
      let (history, rest) ← fromKeyedAccount STAKE_HISTORY_ID sysvars.stakeHistory rest
      let (withdrawAuthority, rest) ← nextKeyedAccount rest
      withdraw o l me.key lamports dest.key clock history withdrawAuthority rest.head?
    | .deactivate =>
      let (clock, _) ← fromKeyedAccount CLOCK_ID sysvars.clock rest
      let a ← deactivate (l.get me.key) clock signers
      .ok (l.set me.key a)
    | .setLockup lockup =>
      let a ← setLockup (l.get me.key) lockup signers
      .ok (l.set me.key a)

end

end Panoptes.StakeProgram
