import Panoptes.Runtime.AccountData

/-!
# Rewards of one stake

The points a stake has earned and the payout for them: `Stake::calculate_points_and_credits`,
`Stake::calculate_rewards` and `redeem_rewards` of `programs/stake/src/stake_state.rs`, with
`VoteState::commission_split`.  Differences of credits and sums of points wrap, as a release build
has them; the products that the source checks abort.

* `calculatePointsAndCredits` — the loop over the credit history of the vote account.
* `calculateRewards` — the payout, split by the commission.
* `redeemRewards` — the two accounts after the payout.
-/

set_option autoImplicit false

namespace Panoptes.VoteProgram

/-- `commission_split`: the portions of the voter and of the staker, and whether there are two. -/
def VoteState.commissionSplit (vs : VoteState) (on : Nat) : Nat × Nat × Bool :=
  let split := min vs.commission 100
  if split = 0 then (0, on, false)
  else if split = 100 then (on, 0, false)
  else (on * split / 100, on * (100 - split) / 100, true)

end Panoptes.VoteProgram

namespace Panoptes.StakeProgram

open Lib Sdk Panoptes.Runtime
open VoteProgram (VoteState EpochCredits)

/-- The number of values of a `u128`. -/
def U128 : Nat := 2 ^ 128

structure PointValue where
  /-- Lamports to split. -/
  rewards : Nat
  /-- Over these points. -/
  points : Nat
  deriving DecidableEq, Repr

namespace Stake

section

variable (s : Stake) (pointValue : PointValue) (voteState : VoteState)
  (history : Option StakeHistory) (fixStakeDeactivate : Bool)

/-- One entry of the credit history: the points so far and the credits observed. -/
def pointsStep (acc : Nat × Nat) (entry : EpochCredits) : Nat × Nat :=
  let (points, newCreditsObserved) := acc
  let stake := s.delegation.stakeAt entry.epoch history fixStakeDeactivate
  let earnedCredits :=
    -- The staker observed the entire epoch.
    if s.creditsObserved < entry.prevCredits then wrapSub entry.credits entry.prevCredits
    -- The staker registered sometime during the epoch.
    else if s.creditsObserved < entry.credits then wrapSub entry.credits newCreditsObserved
    else 0
  ((points + stake * earnedCredits) % U128, max newCreditsObserved entry.credits)

def calculatePointsAndCredits (newVoteState : VoteState) (history : Option StakeHistory)
    (fixStakeDeactivate : Bool) : Nat × Nat :=
  if newVoteState.credits ≤ s.creditsObserved then
    if fixStakeDeactivate then (0, s.creditsObserved) else (0, 0)
  else newVoteState.epochCredits.foldl (s.pointsStep history fixStakeDeactivate)
    (0, s.creditsObserved)

/-- `calculate_rewards`: the rewards of the staker and of the voter, and the credits observed. -/
def calculateRewards : Except Panic (Option (Nat × Nat × Nat)) :=
  let (points, creditsObserved) := s.calculatePointsAndCredits voteState history fixStakeDeactivate
  -- Without rewards the credits observed move forward all the same.
  if pointValue.rewards = 0 ∧ fixStakeDeactivate then .ok (some (0, 0, creditsObserved))
  else if points = 0 ∨ pointValue.points = 0 then .ok none
  -- `checked_mul(..).unwrap()`
  else if U128 ≤ points * pointValue.rewards then .error .unwrapNone
  else
    let rewards := points * pointValue.rewards / pointValue.points
    -- `u64::try_from(rewards).unwrap()`
    if U64 ≤ rewards then .error .unwrapNone
    else if rewards = 0 then .ok none
    else
      let (voterRewards, stakerRewards, isSplit) := voteState.commissionSplit rewards
      if (voterRewards = 0 ∨ stakerRewards = 0) ∧ isSplit then .ok none
      else .ok (some (stakerRewards, voterRewards, creditsObserved))

/-- `Stake::redeem_rewards`: the stake after the payout, and the rewards of staker and voter. -/
def redeemRewards (o : Overflow) (s : Stake) (pointValue : PointValue) (voteState : VoteState)
    (history : Option StakeHistory) (fixStakeDeactivate : Bool) :
    Except Panic (Option (Stake × Nat × Nat)) := do
  match ← s.calculateRewards pointValue voteState history fixStakeDeactivate with
  | none => .ok none
  | some (stakersReward, votersReward, creditsObserved) =>
    let stake ← addU64 o s.delegation.stake stakersReward
    .ok (some ({ s with delegation := { s.delegation with stake }, creditsObserved },
      stakersReward, votersReward))

end

end Stake

/-- `redeem_rewards`: the stake account and the vote account after the payout, and the two
rewards. -/
def redeemRewards (o : Overflow) (stakeAccount voteAccount : BankAccount) (pointValue : PointValue)
    (history : Option StakeHistory) (fixStakeDeactivate : Bool) :
    Res InstructionError (BankAccount × BankAccount × Nat × Nat) := do
  match ← stakeAccount.state with
  | .stake info stake =>
    let voteState ← voteAccount.voteState
    match ← liftPanic (stake.redeemRewards o pointValue voteState history fixStakeDeactivate) with
    | some (stake, stakersReward, votersReward) =>
      let stakeLamports ← liftPanic (addU64 o stakeAccount.lamports stakersReward)
      let voteLamports ← liftPanic (addU64 o voteAccount.lamports votersReward)
      let stakeAccount ← Account.setState { stakeAccount with lamports := stakeLamports }
        (.stake info stake)
      .ok (stakeAccount, { voteAccount with lamports := voteLamports }, stakersReward, votersReward)
    | none => fail StakeError.noCreditsToRedeem.into
  | _ => fail .invalidAccountData

end Panoptes.StakeProgram
