import Panoptes.Sdk.Account
import Panoptes.Sdk.Rent
import Panoptes.Vote.Program

/-!
# The stake state

The data types of `programs/stake/src/stake_state.rs` and how much of a delegation is in effect at
an epoch.

* `StakeState`, `Meta`, `Lockup`, `Stake`, `Delegation` — the content of a stake account.
* `StakeHistory` — the cluster's effective, activating and deactivating stake by epoch.
* `Delegation.stakeActivatingAndDeactivating` — the warm-up and the cool-down of one delegation,
  each a loop over the epochs of the history.  The share of an epoch is computed in `f64`; sums
  wrap, as a release build has them.

Principal result: `stakeAt_le`, no more is in effect than was delegated.
-/

set_option autoImplicit false

namespace Panoptes.StakeProgram

open Lib Sdk
open Std (ExtTreeMap)

/-- `std::u64::MAX`, the epoch that stands for never. -/
def EPOCH_MAX : Nat := U64 - 1

/-! ## Lockups and authorities -/

structure Lockup where
  /-- The time at which the stake allows withdrawal, unless the custodian signs. -/
  unixTimestamp : Int
  /-- The epoch at which the stake allows withdrawal, unless the custodian signs. -/
  epoch : Nat
  custodian : Pubkey
  deriving DecidableEq, Repr

def Lockup.default : Lockup := ⟨0, 0, 0⟩

def Lockup.isInForce (lockup : Lockup) (clock : Clock) (custodian : Option Pubkey) : Bool :=
  if custodian = some lockup.custodian then false
  else decide (clock.unixTimestamp < lockup.unixTimestamp) || decide (clock.epoch < lockup.epoch)

structure Authorized where
  staker : Pubkey
  withdrawer : Pubkey
  deriving DecidableEq, Repr

inductive StakeAuthorize where
  | staker
  | withdrawer
  deriving DecidableEq, Repr

structure Meta where
  rentExemptReserve : Nat
  authorized : Authorized
  lockup : Lockup
  deriving DecidableEq, Repr

structure LockupArgs where
  unixTimestamp : Option Int
  epoch : Option Nat
  custodian : Option Pubkey
  deriving DecidableEq, Repr

inductive StakeError where
  | noCreditsToRedeem
  | lockupInForce
  | alreadyDeactivated
  | tooSoonToRedelegate
  | insufficientStake
  | mergeTransientStake
  | mergeMismatch
  deriving DecidableEq, Repr

/-- A `StakeError` as an instruction error: its number in the enumeration. -/
def StakeError.into : StakeError → InstructionError
  | .noCreditsToRedeem => .custom 0
  | .lockupInForce => .custom 1
  | .alreadyDeactivated => .custom 2
  | .tooSoonToRedelegate => .custom 3
  | .insufficientStake => .custom 4
  | .mergeTransientStake => .custom 5
  | .mergeMismatch => .custom 6

/-- `Err(e)` of an instruction. -/
def fail {α : Type} (e : InstructionError) : Res InstructionError α := .error (.error e)

def Meta.setLockup (m : Meta) (lockup : LockupArgs) (signers : Finset Pubkey) :
    Res InstructionError Meta :=
  if m.lockup.custodian ∉ signers then fail .missingRequiredSignature
  else
    .ok { m with
      lockup :=
        { unixTimestamp := lockup.unixTimestamp.getD m.lockup.unixTimestamp
          epoch := lockup.epoch.getD m.lockup.epoch
          custodian := lockup.custodian.getD m.lockup.custodian } }

namespace Authorized

def check (a : Authorized) (signers : Finset Pubkey) (stakeAuthorize : StakeAuthorize) :
    Res InstructionError Unit :=
  match stakeAuthorize with
  | .staker => if a.staker ∈ signers then .ok () else fail .missingRequiredSignature
  | .withdrawer => if a.withdrawer ∈ signers then .ok () else fail .missingRequiredSignature

/-- `authorize`: the staker or the withdrawer may change the staker, the withdrawer the
withdrawer. -/
def authorize (a : Authorized) (signers : Finset Pubkey) (newAuthorized : Pubkey)
    (stakeAuthorize : StakeAuthorize) : Res InstructionError Authorized :=
  match stakeAuthorize with
  | .staker =>
    if a.staker ∉ signers ∧ a.withdrawer ∉ signers then fail .missingRequiredSignature
    else .ok { a with staker := newAuthorized }
  | .withdrawer => do
    a.check signers .withdrawer
    .ok { a with withdrawer := newAuthorized }

end Authorized

/-! ## The stake history -/

structure StakeHistoryEntry where
  effective : Nat
  activating : Nat
  deactivating : Nat
  deriving DecidableEq, Repr

def MAX_ENTRIES : Nat := 512

/-- The `StakeHistory` sysvar: entries by epoch, in the source a vector sorted by epoch. -/
abbrev StakeHistory := ExtTreeMap Nat StakeHistoryEntry

/-- `StakeHistory::add`: the oldest entry goes when there are more than `MAX_ENTRIES`. -/
def StakeHistory.add (history : StakeHistory) (epoch : Nat)
    (entry : StakeHistoryEntry) : StakeHistory :=
  let added := history.insert epoch entry
  if MAX_ENTRIES < added.size then
    match added.minKey? with
    | some oldest => added.erase oldest
    | none => added
  else added

/-! ## Delegations -/

/-- The fields of the stake config account that the program reads. -/
structure Config where
  warmupCooldownRate : F64
  deriving DecidableEq, Repr

/-- `DEFAULT_WARMUP_COOLDOWN_RATE`: one quarter. -/
def Config.default : Config := ⟨.finite (1 / 4)⟩

structure Delegation where
  voterPubkey : Pubkey
  stake : Nat
  activationEpoch : Nat
  deactivationEpoch : Nat
  warmupCooldownRate : F64
  deriving DecidableEq, Repr

namespace Delegation

def new (voterPubkey : Pubkey) (stake activationEpoch : Nat)
    (warmupCooldownRate : F64) : Delegation :=
  { voterPubkey, stake, activationEpoch, deactivationEpoch := EPOCH_MAX, warmupCooldownRate }

variable (d : Delegation)

section

variable (targetEpoch : Nat) (history : Option StakeHistory) (fixStakeDeactivate : Bool)

def isBootstrap : Bool := decide (d.activationEpoch = EPOCH_MAX)

/-- The part of a change of the cluster's stake that a share of it is entitled to, at least 1:
`((share / total) * (effective * rate)) as u64`. -/
def entitlement (share total effective : Nat) : Nat :=
  max
    (((F64.ofNat share).div (F64.ofNat total)).mul
      ((F64.ofNat effective).mul d.warmupCooldownRate)).toU64 1

/-- The warm-up loop, from the epoch after `prevEpoch` on; `n` is the number of epochs from
`prevEpoch` to the target epoch, so the loop ends before it runs out. -/
def warmupLoop (d : Delegation) (history : StakeHistory) (targetEpoch : Nat) :
    Nat → Nat → StakeHistoryEntry → Nat → Nat
  | 0, _, _, currentEffectiveStake => currentEffectiveStake
  | n + 1, prevEpoch, prevClusterStake, currentEffectiveStake =>
    let currentEpoch := prevEpoch + 1
    -- With nothing activating at the previous epoch the stake should be fully effective by now.
    if prevClusterStake.activating = 0 then currentEffectiveStake
    else
      let remainingActivatingStake := d.stake - currentEffectiveStake
      let newlyEffectiveStake := d.entitlement remainingActivatingStake prevClusterStake.activating
        prevClusterStake.effective
      let currentEffectiveStake := wrapAdd currentEffectiveStake newlyEffectiveStake
      if d.stake ≤ currentEffectiveStake then d.stake
      else if targetEpoch ≤ currentEpoch ∨ d.deactivationEpoch ≤ currentEpoch then
        currentEffectiveStake
      else
        match history[currentEpoch]? with
        | some currentClusterStake =>
          warmupLoop d history targetEpoch n currentEpoch currentClusterStake currentEffectiveStake
        | none => currentEffectiveStake

def stakeAndActivating : Nat × Nat :=
  if d.isBootstrap then (d.stake, 0)
  else if fixStakeDeactivate ∧ d.activationEpoch = d.deactivationEpoch then
    -- Activated but instantly deactivated.
    (0, 0)
  else if targetEpoch = d.activationEpoch then (0, d.stake)
  else if targetEpoch < d.activationEpoch then (0, 0)
  else
    match history with
    | none => (d.stake, 0)
    | some history =>
      match history[d.activationEpoch]? with
      -- Dropped out of the history.
      | none => (d.stake, 0)
      | some prevClusterStake =>
        let effective := d.warmupLoop history targetEpoch (targetEpoch - d.activationEpoch)
          d.activationEpoch prevClusterStake 0
        (effective, d.stake - effective)

/-- The cool-down loop, from the epoch after `prevEpoch` on, as `warmupLoop`. -/
def cooldownLoop (d : Delegation) (history : StakeHistory) (targetEpoch : Nat) :
    Nat → Nat → StakeHistoryEntry → Nat → Nat
  | 0, _, _, currentEffectiveStake => currentEffectiveStake
  | n + 1, prevEpoch, prevClusterStake, currentEffectiveStake =>
    let currentEpoch := prevEpoch + 1
    if prevClusterStake.deactivating = 0 then currentEffectiveStake
    else
      let newlyNotEffectiveStake :=
        d.entitlement currentEffectiveStake prevClusterStake.deactivating
        prevClusterStake.effective
      let currentEffectiveStake := currentEffectiveStake - newlyNotEffectiveStake
      if currentEffectiveStake = 0 then currentEffectiveStake
      else if targetEpoch ≤ currentEpoch then currentEffectiveStake
      else
        match history[currentEpoch]? with
        | some currentClusterStake =>
          cooldownLoop d history targetEpoch n currentEpoch currentClusterStake
            currentEffectiveStake
        | none => currentEffectiveStake

def stakeActivatingAndDeactivating : Nat × Nat × Nat :=
  let (effectiveStake, activatingStake) :=
    d.stakeAndActivating targetEpoch history fixStakeDeactivate
  if targetEpoch < d.deactivationEpoch then (effectiveStake, activatingStake, 0)
  else if targetEpoch = d.deactivationEpoch then
    -- Only what is activated can deactivate.
    (effectiveStake, 0, min effectiveStake d.stake)
  else
    match history with
    | none => (0, 0, 0)
    | some history =>
      match history[d.deactivationEpoch]? with
      | none => (0, 0, 0)
      | some prevClusterStake =>
        let effective := d.cooldownLoop history targetEpoch (targetEpoch - d.deactivationEpoch)
          d.deactivationEpoch prevClusterStake effectiveStake
        (effective, 0, effective)

end

/-- `Delegation::stake`: the effective stake at an epoch. -/
def stakeAt (epoch : Nat) (history : Option StakeHistory) (fixStakeDeactivate : Bool) :
    Nat :=
  (d.stakeActivatingAndDeactivating epoch history fixStakeDeactivate).1

/-! ### What is in effect is within what is delegated -/

section

variable (d : Delegation)

section

variable (history : StakeHistory) (targetEpoch n prevEpoch : Nat) (prev : StakeHistoryEntry)
  (current : Nat)
include history

theorem warmupLoop_le (h : current ≤ d.stake) :
    d.warmupLoop history targetEpoch n prevEpoch prev current ≤ d.stake := by
  induction n generalizing prevEpoch prev current with
  | zero => exact h
  | succ n ih =>
    unfold warmupLoop
    dsimp only
    split
    · exact h
    · split
      · exact le_rfl
      · split
        · omega
        · split
          · exact ih _ _ _ (by omega)
          · omega

theorem cooldownLoop_le :
    d.cooldownLoop history targetEpoch n prevEpoch prev current ≤ current := by
  induction n generalizing prevEpoch prev current with
  | zero => exact le_rfl
  | succ n ih =>
    unfold cooldownLoop
    dsimp only
    split
    · exact le_rfl
    · split
      · omega
      · split
        · exact Nat.sub_le _ _
        · split
          · exact (ih _ _ _).trans (Nat.sub_le _ _)
          · exact Nat.sub_le _ _

end

theorem stakeAndActivating_le (targetEpoch : Nat) (history : Option StakeHistory)
    (fixStakeDeactivate : Bool) :
    (d.stakeAndActivating targetEpoch history fixStakeDeactivate).1 ≤ d.stake ∧
      (d.stakeAndActivating targetEpoch history fixStakeDeactivate).2 ≤ d.stake := by
  unfold stakeAndActivating
  split
  · exact ⟨le_rfl, Nat.zero_le _⟩
  · split
    · exact ⟨Nat.zero_le _, Nat.zero_le _⟩
    · split
      · exact ⟨Nat.zero_le _, le_rfl⟩
      · split
        · exact ⟨Nat.zero_le _, Nat.zero_le _⟩
        · split
          · exact ⟨le_rfl, Nat.zero_le _⟩
          · split
            · exact ⟨le_rfl, Nat.zero_le _⟩
            · exact ⟨warmupLoop_le _ _ _ _ _ _ _ (Nat.zero_le _), Nat.sub_le _ _⟩

theorem stakeActivatingAndDeactivating_le (epoch : Nat) (history : Option StakeHistory)
    (fixStakeDeactivate : Bool) :
    (d.stakeActivatingAndDeactivating epoch history fixStakeDeactivate).1 ≤ d.stake ∧
      (d.stakeActivatingAndDeactivating epoch history fixStakeDeactivate).2.1 ≤ d.stake ∧
      (d.stakeActivatingAndDeactivating epoch history fixStakeDeactivate).2.2 ≤ d.stake := by
  obtain ⟨heffective, hactivating⟩ := d.stakeAndActivating_le epoch history fixStakeDeactivate
  unfold stakeActivatingAndDeactivating
  dsimp only
  split
  · exact ⟨heffective, hactivating, Nat.zero_le _⟩
  · split
    · exact ⟨heffective, Nat.zero_le _, Nat.min_le_right _ _⟩
    · split
      · exact ⟨Nat.zero_le _, Nat.zero_le _, Nat.zero_le _⟩
      · split
        · exact ⟨Nat.zero_le _, Nat.zero_le _, Nat.zero_le _⟩
        · exact ⟨(cooldownLoop_le _ _ _ _ _ _ _).trans heffective, Nat.zero_le _,
            (cooldownLoop_le _ _ _ _ _ _ _).trans heffective⟩

/-- **No more is in effect than was delegated**, at any epoch and under any history. -/
theorem stakeAt_le (epoch : Nat) (history : Option StakeHistory)
    (fixStakeDeactivate : Bool) : d.stakeAt epoch history fixStakeDeactivate ≤ d.stake :=
  (d.stakeActivatingAndDeactivating_le epoch history fixStakeDeactivate).1

end

end Delegation

/-! ## The state -/

structure Stake where
  delegation : Delegation
  /-- The credits of the vote account when the stake was delegated or last redeemed. -/
  creditsObserved : Nat
  deriving DecidableEq, Repr

inductive StakeState where
  | uninitialized
  | initialized (info : Meta)
  | stake (info : Meta) (stake : Stake)
  | rewardsPool
  deriving DecidableEq, Repr

namespace StakeState

/-- `std::mem::size_of::<StakeState>()`. -/
def SIZE : Nat := 200

/-- The bincode size: a tag of four bytes, 120 bytes of a `Meta`, 72 of a `Stake`. -/
def serializedSize : StakeState → Nat
  | uninitialized => 4
  | initialized _ => 4 + 120
  | stake _ _ => 4 + 120 + 72
  | rewardsPool => 4

def getMeta : StakeState → Option Meta
  | stake info _ => some info
  | initialized info => some info
  | _ => none

def lockup (s : StakeState) : Option Lockup := s.getMeta.map Meta.lockup

def delegation : StakeState → Option Delegation
  | stake _ s => some s.delegation
  | _ => none

end StakeState

end Panoptes.StakeProgram
