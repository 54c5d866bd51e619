import Panoptes.Stake.Lockup

/-!
# Delegated stake stays funded

The balance of a stake account covers its rent exempt reserve, and its delegated stake too as long
as it is not deactivated.  Each operation changes balance, reserve and stake by formulas of its own;
none of them breaks the cover.

* `Backed s n` — `n` lamports cover what state `s` promises.
* `Operation` — the stake instructions, and the payout of rewards by the bank.
* `Rewrite.backed`, `SplitInto.backed`, `MergeInto.backed`, `redeemRewards_grows` — one lemma for
  each way a state changes.

Principal result: `stake_funded`, over every run in which no balance overflows.
-/

set_option autoImplicit false

namespace Panoptes.StakeProgram

open Lib Sdk Panoptes.Runtime

/-! ## Operations -/

/-- A stake instruction, or the payout of the rewards of one stake. -/
inductive Operation where
  | instruction (call : Call)
  | redeemRewards (stakeKey voteKey : Pubkey) (pointValue : PointValue)
    (history : Option StakeHistory)
      (fixStakeDeactivate : Bool)

def Operation.run (hashv : Pubkey → String → Pubkey → Pubkey) (o : Overflow) (l : BankLedger) :
    Operation → Res InstructionError BankLedger
  | .instruction call => call.run hashv o l
  | .redeemRewards stakeKey voteKey pointValue history fixStakeDeactivate => do
    let (stakeAccount, voteAccount, _, _) ← StakeProgram.redeemRewards o
      (l.get stakeKey) (l.get voteKey)
      pointValue history fixStakeDeactivate
    .ok ((l.set stakeKey stakeAccount).set voteKey voteAccount)

/-! ## The cover -/

variable {s s' : StakeState} {n : Nat} {a : BankAccount} {signers : Finset Pubkey}
  {l l' : BankLedger}

/-- `n` lamports cover the reserve of a state, and the stake unless it was deactivated. -/
def Backed : StakeState → Nat → Prop
  | .uninitialized, _ => True
  | .initialized info, n => info.rentExemptReserve ≤ n
  | .stake info s, n => info.rentExemptReserve ≤ n ∧
      (s.delegation.deactivationEpoch = EPOCH_MAX → info.rentExemptReserve + s.delegation.stake ≤ n)
  | .rewardsPool, _ => True

theorem Backed.mono {m : Nat} (h : Backed s n) (hle : n ≤ m) : Backed s m := by
  cases s with
  | uninitialized => trivial
  | initialized => exact Nat.le_trans h hle
  | stake => exact ⟨h.1.trans hle, fun hmax => (h.2 hmax).trans hle⟩
  | rewardsPool => trivial

/-- The balance of a stake account covers its state. -/
def Funded (a : BankAccount) : Prop :=
  a.owner = id → ∀ s, a.data.stakeState = some s → Backed s a.lamports

theorem funded_of_state (hs : a.data.stakeState = some s) (h : a.owner = id → Backed s a.lamports) :
    Funded a := by
  intro howner s' hs'
  rw [hs, Option.some.injEq] at hs'
  exact hs' ▸ h howner

theorem Funded.mono {a' : BankAccount} (h : Funded a) (howner : a'.owner = a.owner)
    (hstate : a'.data.stakeState = a.data.stakeState) (hle : a.lamports ≤ a'.lamports) :
    Funded a' := by
  intro hid s hs
  exact (h (howner ▸ hid) s (hstate ▸ hs)).mono hle

theorem add_of_checked {a b c : Nat} (h : addU64 .checked a b = .ok c) : c = a + b :=
  addU64_eq_ok h (.inl rfl)

/-! ## What the operations do to it -/

theorem Rewrite.backed (h : Rewrite n signers s s') (hs : Backed s n) : Backed s' n := by
  cases h with
  | initialized info hfunded => exact hfunded.le
  | authorizedInitialized => exact hs
  | authorizedStake => exact hs
  | lockupInitialized => exact hs
  | lockupStake => exact hs
  | delegated info stake hstake =>
    refine ⟨hs, fun _ => ?_⟩
    rw [hstake]
    exact (Nat.add_sub_cancel' hs).le
  | redelegated info old stake hstake =>
    refine ⟨hs.1, fun _ => ?_⟩
    rw [hstake]
    exact (Nat.add_sub_cancel' hs.1).le
  | deactivated info stake epoch hactive => exact ⟨hs.1, fun _ => hs.2 hactive⟩

/-- Both parts of a split are covered: the source by what it keeps, the new account by what it had
and gets. -/
theorem SplitInto.backed {selfLamports splitLamports : Nat} {kept moved : StakeState}
    (h : SplitInto .checked n selfLamports splitLamports s kept moved)
    (hs : Backed s selfLamports) :
    (n ≠ selfLamports → Backed kept (selfLamports - n)) ∧ Backed moved (splitLamports + n) := by
  cases h with
  | stake info s delta amount reserve hdelta hpart hnew =>
    refine ⟨fun hn => ?_, ⟨by dsimp only; omega, fun _ => hnew⟩⟩
    obtain ⟨rfl, needed, hadd, hlt⟩ := hpart hn
    have hneeded := add_of_checked hadd
    refine ⟨by omega, fun hmax => ?_⟩
    have := hs.2 hmax
    dsimp only
    omega
  | initialized info reserve hpart hnew =>
    refine ⟨fun hn => ?_, hnew⟩
    obtain ⟨needed, hadd, hlt⟩ := hpart hn
    have hneeded := add_of_checked hadd
    show info.rentExemptReserve ≤ selfLamports - n
    omega

/-- The stake a merge adds is covered by what the source brings. -/
theorem MergeInto.backed {sourceLamports destLamports : Nat} {t : StakeState}
    (h : MergeInto .checked sourceLamports s t s') (hs : Backed s destLamports)
    (ht : Backed t sourceLamports) : Backed s' (destLamports + sourceLamports) := by
  cases h with
  | unchanged => exact hs.mono (Nat.le_add_right _ _)
  | grown info stake _ added total hlockup hadd hadded =>
    have htotal := add_of_checked hadd
    have hcover : added ≤ sourceLamports := by
      obtain hall | ⟨sourceInfo, sourceStake, rfl, hmax, hadded⟩ := hadded
      · exact hall.le
      · have hsource := ht.2 hmax
        cases hadded with
        | inl => omega
        | inr hsum =>
          have := add_of_checked hsum
          omega
    refine ⟨hs.1.trans (Nat.le_add_right _ _), fun hmax => ?_⟩
    have := hs.2 hmax
    dsimp only
    omega

/-- What a withdrawal must leave covers the state. -/
theorem withdrawTerms_backed {key : Pubkey} {clock : Clock} {history : StakeHistory}
    {lockup : Lockup} {reserve : Nat} {isStaked : Bool} (hs : a.data.stakeState = some s)
    (h : withdrawTerms .checked a key clock history signers = .ok (lockup, reserve, isStaked)) :
    Backed s reserve := by
  obtain ⟨s', hs', h⟩ := bind_eq_ok.mp h
  rw [Account.state_eq_ok.mp hs', Option.some.injEq] at hs
  subst hs
  cases s' with
  | uninitialized => trivial
  | rewardsPool => trivial
  | initialized =>
    obtain ⟨_, -, h⟩ := bind_eq_ok.mp h
    cases h
    exact le_rfl
  | stake info stake =>
    obtain ⟨_, -, h⟩ := bind_eq_ok.mp h
    obtain ⟨sum, hsum, h⟩ := bind_eq_ok.mp h
    have hsum := add_of_checked (liftPanic_eq_ok hsum)
    cases h
    refine ⟨by omega, fun hmax => ?_⟩
    -- The clock never reaches the epoch that stands for never, so the stake is taken in full.
    have hepoch : ¬ clock.epoch ≥ stake.delegation.deactivationEpoch := by
      have := clock.epoch_le
      have := clock.leaderScheduleEpoch_lt
      rw [hmax, EPOCH_MAX]
      omega
    rw [if_neg hepoch] at hsum
    omega

/-- **One instruction** keeps every account funded. -/
theorem Effect.funded {sysvars : Sysvars} (h : Effect .checked sysvars signers l l')
    (hfunded : ∀ key, Funded (l.get key)) (key : Pubkey) :
    Funded (l'.get key) := by
  have hfit : Fits .checked l := .inl rfl
  cases h with
  | rewrite key' a' howner hrewrites hset =>
    rw [hset, Ledger.get_set]
    by_cases hkey : key = key'
    · rw [if_pos hkey]
      obtain ⟨s, s', hs, hs', hlam, -, hrewrite⟩ := hrewrites
      refine funded_of_state hs' fun _ => ?_
      rw [hlam]
      exact hrewrite.backed (hfunded key' howner s hs)
    · rw [if_neg hkey]
      exact hfunded key
  | split src dst n howner hrun =>
    obtain ⟨htransfer, -, -, hcases⟩ := split_effect hfit hrun
    have hlam := htransfer.lamports key
    obtain ⟨hs, hsame⟩ | ⟨hne, s, kept, moved, hs, hinto, hkept, hmoved⟩ := hcases
    · by_cases hsrc : key = src
      · rw [hsrc]
        exact funded_of_state ((hsame src).trans hs) fun _ => trivial
      · rw [if_neg hsrc] at hlam
        exact (hfunded key).mono (htransfer.owner key) (hsame key) (by omega)
    · have hbacked := hinto.backed (hfunded src howner s hs)
      by_cases hsrc : key = src
      · rw [hsrc, if_pos rfl] at hlam
        rw [hsrc]
        refine funded_of_state hkept fun _ => ?_
        split
        · trivial
        · rename_i hpart
          exact (hbacked.1 hpart).mono (by omega)
      · by_cases hdst : key = dst
        · rw [hdst, if_neg (Ne.symm hne), if_pos rfl] at hlam
          rw [hdst]
          exact funded_of_state hmoved fun _ => hbacked.2.mono (by omega)
        · rw [htransfer.frame key hsrc hdst]
          exact hfunded key
  | merge dst src howner hrun =>
    obtain ⟨htransfer, hne, hid, s, t, s', hs, ht, hinto, hs', ht'⟩ := merge_effect hfit hrun
    have hlam := htransfer.lamports key
    by_cases hsrc : key = src
    · rw [hsrc]
      exact funded_of_state ht' fun _ => trivial
    · by_cases hdst : key = dst
      · rw [if_neg hsrc, if_pos hdst, hdst] at hlam
        rw [hdst]
        refine funded_of_state hs' fun _ => ?_
        exact (hinto.backed (hfunded dst howner s hs) (hfunded src hid t ht)).mono (by omega)
      · rw [htransfer.frame key hsrc hdst]
        exact hfunded key
  | withdraw src dst n authority custodian howner hcustodian hrange hrun =>
    obtain ⟨htransfer, ⟨_, lockup, reserve, isStaked, hterms, -, hleft⟩, hstate, hdata⟩ :=
      withdraw_effect hfit hrange hrun
    have hlam := htransfer.lamports key
    by_cases hsrc : key = src
    · rw [hsrc, if_pos rfl] at hlam
      rw [hsrc]
      intro _ s hs
      rw [hstate] at hs
      by_cases hall : n = (l.get src).lamports
      · rw [if_pos hall] at hs
        cases hs
        trivial
      · rw [if_neg hall] at hs
        exact (withdrawTerms_backed hs hterms).mono (by omega)
    · rw [if_neg hsrc] at hlam
      exact (hfunded key).mono (htransfer.owner key) (by rw [hdata key hsrc]) (by omega)

/-- **A payout** adds the same amount to the balance and to the stake. -/
theorem redeemRewards_grows {stakeAccount voteAccount stakeAccount' voteAccount' : BankAccount}
    {pointValue : PointValue} {history : Option StakeHistory} {fixStakeDeactivate : Bool}
    {stakersReward votersReward : Nat}
    (h : redeemRewards .checked stakeAccount voteAccount pointValue history fixStakeDeactivate
      = .ok (stakeAccount', voteAccount', stakersReward, votersReward)) :
    (∃ info stake stake', stakeAccount.data.stakeState = some (.stake info stake) ∧
      stakeAccount'.data.stakeState = some (.stake info stake') ∧
      stakeAccount'.owner = stakeAccount.owner ∧
      stakeAccount'.lamports = stakeAccount.lamports + stakersReward ∧
      stake'.delegation =
        { stake.delegation with stake := stake.delegation.stake + stakersReward }) ∧
      voteAccount' = { voteAccount with lamports := voteAccount.lamports + votersReward } := by
  obtain ⟨s, hs, h⟩ := bind_eq_ok.mp h
  cases s with
  | uninitialized => cases h
  | rewardsPool => cases h
  | initialized => cases h
  | stake info stake =>
    obtain ⟨voteState, -, h⟩ := bind_eq_ok.mp h
    obtain ⟨paid, hpaid, h⟩ := bind_eq_ok.mp h
    cases paid with
    | none => cases h
    | some paid =>
      obtain ⟨stake', stakersReward', votersReward'⟩ := paid
      obtain ⟨stakeLamports, hstakeLam, h⟩ := bind_eq_ok.mp h
      obtain ⟨voteLamports, hvoteLam, h⟩ := bind_eq_ok.mp h
      obtain ⟨a, ha, h⟩ := bind_eq_ok.mp h
      obtain ⟨hstate, -, hlam, howner⟩ := Account.setState_eq_ok ha
      cases h
      refine ⟨⟨info, stake, stake', Account.state_eq_ok.mp hs, hstate, howner, ?_, ?_⟩, ?_⟩
      · rw [hlam]
        exact add_of_checked (liftPanic_eq_ok hstakeLam)
      · obtain ⟨rewards, -, hpaid⟩ := bind_eq_ok.mp (liftPanic_eq_ok hpaid)
        cases rewards with
        | none => cases hpaid
        | some =>
          obtain ⟨total, htotal, hpaid⟩ := bind_eq_ok.mp hpaid
          cases hpaid
          rw [← add_of_checked htotal]
      · rw [← add_of_checked (liftPanic_eq_ok hvoteLam)]

/-- **One operation** keeps every account funded. -/
theorem Operation.funded {hashv : Pubkey → String → Pubkey → Pubkey} {operation : Operation}
    (hfunded : ∀ key, Funded (l.get key)) (h : operation.run hashv .checked l = .ok l')
    (key : Pubkey) : Funded (l'.get key) := by
  cases operation with
  | instruction =>
    exact (processInstruction_effect (inRange_checked _ _ _ _) h).funded hfunded key
  | redeemRewards stakeKey voteKey =>
    obtain ⟨⟨stakeAccount, voteAccount, stakersReward, votersReward⟩, hredeem, h⟩ := bind_eq_ok.mp h
    cases h
    obtain ⟨⟨info, stake, stake', hs, hs', howner, hlam, hdelegation⟩, rfl⟩ :=
      redeemRewards_grows hredeem
    rw [Ledger.get_set, Ledger.get_set]
    by_cases hvote : key = voteKey
    · rw [if_pos hvote]
      exact (hfunded voteKey).mono rfl rfl (Nat.le_add_right _ _)
    · rw [if_neg hvote]
      by_cases hstake : key = stakeKey
      · rw [if_pos hstake]
        refine funded_of_state hs' fun hid => ?_
        have hbacked := hfunded stakeKey (howner ▸ hid) _ hs
        rw [hlam]
        refine ⟨hbacked.1.trans (Nat.le_add_right _ _), fun hmax => ?_⟩
        rw [hdelegation] at hmax ⊢
        have := hbacked.2 hmax
        dsimp only
        omega
      · rw [if_neg hstake]
        exact hfunded key

/-! ## Runs -/

/-- No stake account is initialized yet. -/
def Fresh (l : BankLedger) : Prop :=
  ∀ key, (l.get key).owner = id → (l.get key).data.stakeState.bind StakeState.getMeta = none

theorem Fresh.funded {l : BankLedger} (h : Fresh l) (key : Pubkey) : Funded (l.get key) := by
  intro howner s hs
  have hnone := h key howner
  rw [hs] at hnone
  cases s with
  | uninitialized => trivial
  | rewardsPool => trivial
  | initialized => cases hnone
  | stake => cases hnone

/-- **Delegated stake stays funded.**  Whatever operations are run on stake accounts that were all
initialized by the program, without an overflow of a balance: a stake that is not deactivated is
covered together with the reserve, and the reserve of an initialized account is. -/
theorem stake_funded (hashv : Pubkey → String → Pubkey → Pubkey) {start l : BankLedger}
    (hstart : Fresh start)
    (h : Reachable (Operation.run hashv .checked) (fun _ _ => True) start l) (key : Pubkey)
    (howner : (l.get key).owner = id) :
    (∀ info stake, (l.get key).data.stakeState = some (.stake info stake) →
      stake.delegation.deactivationEpoch = EPOCH_MAX →
      info.rentExemptReserve + stake.delegation.stake ≤ (l.get key).lamports) ∧
    ∀ info, (l.get key).data.stakeState = some (.initialized info) →
      info.rentExemptReserve ≤ (l.get key).lamports := by
  have hfunded : ∀ key, Funded (l.get key) :=
    h.invariant hstart.funded
      fun _ _ _ hfunded _ hrun => Operation.funded hfunded hrun
  refine ⟨fun info stake hs hmax => ?_, fun info hs => ?_⟩
  · exact (hfunded key howner _ hs).2 hmax
  · exact hfunded key howner _ hs

/-- Two fresh stake accounts, 1 with 10 million lamports, and vote account 3. -/
def freshStart : BankLedger :=
  ((Ledger.set (∅ : BankLedger) 1 ⟨10000000, ⟨200, .zeroed⟩, id, false, 0⟩).set 2
      ⟨0, ⟨200, .zeroed⟩, id, false, 0⟩).set 3 ⟨1, ⟨3731, .zeroed⟩, VOTE_PROGRAM_ID, false, 0⟩

/-- Account 1 is initialized and delegated, and 4 million lamports are split off. -/
def stakeOperations : List Operation :=
  [.instruction ⟨exampleSysvars, [⟨1, false, true⟩, ⟨RENT_ID, false, false⟩],
      .initializeStake ⟨7, 8⟩ exampleLockup⟩,
    .instruction ⟨exampleSysvars, [⟨1, false, true⟩, ⟨3, false, false⟩, ⟨CLOCK_ID, false, false⟩,
      ⟨STAKE_HISTORY_ID, false, false⟩, ⟨STAKE_CONFIG_ID, false, false⟩, ⟨7, true, false⟩],
        .delegateStake⟩,
    .instruction ⟨exampleSysvars, [⟨1, false, true⟩, ⟨2, false, true⟩, ⟨7, true, false⟩],
      .split 4000000⟩]

/-- The stake that is split off: what moved, less the reserve of the new account. -/
def splitOffState : StakeState :=
  .stake ⟨2282880, ⟨7, 8⟩, exampleLockup⟩
    ⟨⟨3, 1717120, 0, EPOCH_MAX, Config.default.warmupCooldownRate⟩, 0⟩

theorem freshStart_fresh : Fresh freshStart := by
  intro key howner
  unfold freshStart at howner ⊢
  rw [Ledger.get_set, Ledger.get_set, Ledger.get_set] at howner ⊢
  split
  · rfl
  · split
    · rfl
    · split
      · rfl
      · rfl

theorem stake_funded_split :
    ∃ l, Reachable (Operation.run (fun _ _ _ => 0) .checked) (fun _ _ => True)
      freshStart l ∧ (l.get 2).data.stakeState = some splitOffState ∧
    2282880 + 1717120 ≤ (l.get 2).lamports := by
  have hrun : ∃ l, Reachable (Operation.run (fun _ _ _ => 0) .checked)
      (fun _ _ => True) freshStart l ∧
      (l.get 2).owner = id ∧ (l.get 2).data.stakeState = some splitOffState :=
    exists_reachable stakeOperations (by decide +kernel)
  obtain ⟨l, hreach, howner, hstate⟩ := hrun
  exact ⟨l, hreach, hstate, (stake_funded _ freshStart_fresh hreach 2 howner).1 _ _ hstate rfl⟩

end Panoptes.StakeProgram
