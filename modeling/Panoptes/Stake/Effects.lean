import Panoptes.Stake.Program

/-!
# What a stake instruction writes

One lemma for each instruction that says everything it writes, and the dispatch in terms of them.

* `Rewrite` — the instructions that write one account and move no lamports.
* `SplitInto`, `MergeInto` — the states a split and a merge give.
* `Fits` — no balance overflows: the build checks for it, or the supply is a `u64`.

Principal result: `processInstruction_effect`, an instruction that returns rewrites one account,
splits one, merges two, or withdraws from one.
-/

set_option autoImplicit false

namespace Panoptes.StakeProgram

open Lib Sdk Panoptes.Runtime Ledger

/-! ## One account -/

section OneAccount

variable {signers : Finset Pubkey} {a a' : BankAccount} {s : StakeState} {clock : Clock}
  {s' : Stake} {config : Config} {history : StakeHistory} {info : Meta}

/-- What an instruction does to the state of one account with the given balance. -/
inductive Rewrite (lamports : Nat) (signers : Finset Pubkey) : StakeState → StakeState → Prop where
  | initialized (info : Meta) (hfunded : info.rentExemptReserve < lamports) :
      Rewrite lamports signers .uninitialized (.initialized info)
  | authorizedInitialized (info : Meta) (authorized : Authorized) :
      Rewrite lamports signers (.initialized info) (.initialized { info with authorized })
  | authorizedStake (info : Meta) (authorized : Authorized) (stake : Stake) :
      Rewrite lamports signers (.stake info stake) (.stake { info with authorized } stake)
  | lockupInitialized (info : Meta) (lockup : Lockup) (hsigned : info.lockup.custodian ∈ signers) :
      Rewrite lamports signers (.initialized info) (.initialized { info with lockup })
  | lockupStake (info : Meta) (lockup : Lockup) (stake : Stake)
      (hsigned : info.lockup.custodian ∈ signers) :
      Rewrite lamports signers (.stake info stake) (.stake { info with lockup } stake)
  | delegated (info : Meta) (stake : Stake)
      (hstake : stake.delegation.stake = lamports - info.rentExemptReserve) :
      Rewrite lamports signers (.initialized info) (.stake info stake)
  | redelegated (info : Meta) (old stake : Stake)
      (hstake : stake.delegation.stake = lamports - info.rentExemptReserve) :
      Rewrite lamports signers (.stake info old) (.stake info stake)
  | deactivated (info : Meta) (stake : Stake) (epoch : Nat)
      (hactive : stake.delegation.deactivationEpoch = EPOCH_MAX) :
      Rewrite lamports signers (.stake info stake)
        (.stake info { stake with
          delegation := { stake.delegation with deactivationEpoch := epoch } })

/-- `a` becomes `a'` by a rewrite of its state. -/
def Rewrites (signers : Finset Pubkey) (a a' : BankAccount) : Prop :=
  ∃ s s', a.data.stakeState = some s ∧ a'.data.stakeState = some s' ∧ a'.lamports = a.lamports ∧
    a'.owner = a.owner ∧ Rewrite a.lamports signers s s'

theorem Rewrites.of_setState {s' : StakeState} (hs : a.state = .ok s)
    (hset : a.setState s' = .ok a') (h : Rewrite a.lamports signers s s') :
    Rewrites signers a a' := by
  obtain ⟨hstate, -, hlamports, howner⟩ := Account.setState_eq_ok hset
  exact ⟨s, s', Account.state_eq_ok.mp hs, hstate, hlamports, howner, h⟩

theorem initializeStake_rewrites {authorized : Authorized} {lockup : Lockup} {rent : Rent}
    (signers : Finset Pubkey) (h : initializeStake a authorized lockup rent = .ok a') :
    Rewrites signers a a' := by
  obtain ⟨-, h⟩ := ite_error_eq_ok.mp h
  obtain ⟨s, hs, h⟩ := bind_eq_ok.mp h
  cases s with
  | uninitialized =>
    obtain ⟨hfunded, h⟩ := ite_eq_ok.mp h
    exact .of_setState hs h (.initialized _ hfunded)
  | initialized => cases h
  | stake => cases h
  | rewardsPool => cases h

theorem authorize_rewrites {signers' : Finset Pubkey} {newAuthority : Pubkey}
    {stakeAuthorize : StakeAuthorize}
    (h : authorize a signers newAuthority stakeAuthorize = .ok a') : Rewrites signers' a a' := by
  obtain ⟨s, hs, h⟩ := bind_eq_ok.mp h
  cases s with
  | uninitialized => cases h
  | initialized info =>
    obtain ⟨authorized, -, h⟩ := bind_eq_ok.mp h
    exact .of_setState hs h (.authorizedInitialized info authorized)
  | stake info stake =>
    obtain ⟨authorized, -, h⟩ := bind_eq_ok.mp h
    exact .of_setState hs h (.authorizedStake info authorized stake)
  | rewardsPool => cases h

theorem redelegate_eq_ok {s : Stake} {stakeLamports : Nat} {voterPubkey : Pubkey}
    {voteState : VoteProgram.VoteState}
    (h : s.redelegate stakeLamports voterPubkey voteState clock history config = .ok s') :
    s'.delegation.stake = stakeLamports := by
  unfold Stake.redelegate at h
  split at h
  · cases h
  · cases h
    rfl

theorem delegate_rewrites {voteAccount : BankAccount} {voteKey : Pubkey}
    (h : delegate a voteKey voteAccount clock history config signers = .ok a') :
    Rewrites signers a a' := by
  obtain ⟨-, h⟩ := ite_error_eq_ok.mp h
  obtain ⟨s, hs, h⟩ := bind_eq_ok.mp h
  cases s with
  | uninitialized => cases h
  | initialized info =>
    obtain ⟨_, -, h⟩ := bind_eq_ok.mp h
    obtain ⟨voteState, -, h⟩ := bind_eq_ok.mp h
    exact .of_setState hs h (.delegated info _ rfl)
  | stake info old =>
    obtain ⟨_, -, h⟩ := bind_eq_ok.mp h
    obtain ⟨voteState, -, h⟩ := bind_eq_ok.mp h
    obtain ⟨stake, hstake, h⟩ := bind_eq_ok.mp h
    exact .of_setState hs h (.redelegated info old stake (redelegate_eq_ok hstake))
  | rewardsPool => cases h

theorem deactivate_rewrites (h : deactivate a clock signers = .ok a') : Rewrites signers a a' := by
  obtain ⟨s, hs, h⟩ := bind_eq_ok.mp h
  cases s with
  | uninitialized => cases h
  | initialized => cases h
  | stake info stake =>
    obtain ⟨_, -, h⟩ := bind_eq_ok.mp h
    obtain ⟨stake', hstake, h⟩ := bind_eq_ok.mp h
    obtain ⟨hactive, hstake⟩ := ite_error_eq_ok.mp hstake
    cases hstake
    exact .of_setState hs h (.deactivated info stake clock.epoch (not_not.mp hactive))
  | rewardsPool => cases h

theorem Meta.setLockup_eq_ok {info' : Meta} {lockup : LockupArgs}
    (h : info.setLockup lockup signers = .ok info') :
    info.lockup.custodian ∈ signers ∧ ∃ new, info' = { info with lockup := new } := by
  obtain ⟨hsigned, h⟩ := ite_error_eq_ok.mp h
  cases h
  exact ⟨not_not.mp hsigned, _, rfl⟩

theorem setLockup_rewrites {lockup : LockupArgs} (h : setLockup a lockup signers = .ok a') :
    Rewrites signers a a' := by
  obtain ⟨s, hs, h⟩ := bind_eq_ok.mp h
  cases s with
  | uninitialized => cases h
  | initialized info =>
    obtain ⟨info', hinfo, h⟩ := bind_eq_ok.mp h
    obtain ⟨hsigned, new, rfl⟩ := Meta.setLockup_eq_ok hinfo
    exact .of_setState hs h (.lockupInitialized info new hsigned)
  | stake info stake =>
    obtain ⟨info', hinfo, h⟩ := bind_eq_ok.mp h
    obtain ⟨hsigned, new, rfl⟩ := Meta.setLockup_eq_ok hinfo
    exact .of_setState hs h (.lockupStake info new stake hsigned)
  | rewardsPool => cases h

end OneAccount

/-! ## Moving lamports -/

section Moving

variable {o : Overflow} {l l' l₁ : BankLedger} {key src dst : Pubkey} {n : Nat}

def Fits (o : Overflow) (l : BankLedger) : Prop := o = .checked ∨ l.lamports < U64

theorem subLamports_eq_ok (hle : n ≤ (l.get key).lamports) (h : subLamports o l key n = .ok l') :
    l' = l.set key { l.get key with lamports := (l.get key).lamports - n } := by
  obtain ⟨lamports, hsub, h⟩ := bind_eq_ok.mp h
  rw [subU64_ok o hle] at hsub
  cases hsub
  cases h
  rfl

theorem addLamports_eq_ok (hfit : o = .checked ∨ (l.get key).lamports + n < U64)
    (h : addLamports o l key n = .ok l') :
    l' = l.set key { l.get key with lamports := (l.get key).lamports + n } := by
  obtain ⟨lamports, hadd, h⟩ := bind_eq_ok.mp h
  rw [addU64_eq_ok (liftPanic_eq_ok hadd) hfit] at h
  cases h
  rfl

theorem transfer_of_sub_add (hfit : Fits o l) (hle : n ≤ (l.get src).lamports)
    (hsub : subLamports o l src n = .ok l₁) (hadd : addLamports o l₁ dst n = .ok l') :
    l.Transfer l' src dst n ∧ ∀ key, (l'.get key).data = (l.get key).data := by
  have h₁ := subLamports_eq_ok hle hsub
  have hsupply : l₁.lamports + n = l.lamports := by
    have := l.lamports_set src { l.get src with lamports := (l.get src).lamports - n }
    rw [← h₁] at this
    dsimp only at this
    omega
  have hdst : (l₁.get dst).lamports ≤ l₁.lamports := l₁.get_lamports_le dst
  have h' := addLamports_eq_ok (hfit.imp_right fun hlt => by omega) hadd
  exact transfer_of_writes hle h₁ h'

/-- Adding and taking back an amount gives the balance, also where the sum wraps in between. -/
theorem sub_of_add {a c d : Nat} (hle : n ≤ a) (hfit : o = .checked ∨ a < U64)
    (hadd : addU64 o a n = .ok c) (hsub : subU64 o c n = .ok d) : d = a := by
  by_cases hlt : a + n < U64
  · rw [addU64_ok o hlt] at hadd
    cases hadd
    rw [subU64_ok o (Nat.le_add_left n a), Nat.add_sub_cancel] at hsub
    cases hsub
    rfl
  · unfold addU64 at hadd
    rw [if_neg hlt] at hadd
    cases hfit with
    | inl ho =>
      rw [ho] at hadd
      cases hadd
    | inr ha =>
      cases o with
      | checked => cases hadd
      | wrapping =>
        cases hadd
        have hwrap : (a + n) % U64 = a + n - U64 := by
          rw [Nat.mod_eq_sub_mod (by omega), Nat.mod_eq_of_lt (by omega)]
        unfold subU64 at hsub
        rw [hwrap, if_neg (by omega), Nat.mod_eq_of_lt (by omega : n < U64)] at hsub
        cases hsub
        have hback : a + n - U64 + (U64 - n) = a := by omega
        rw [hback, Nat.mod_eq_of_lt ha]

theorem transfer_of_add_sub (hfit : Fits o l) (hle : n ≤ (l.get src).lamports)
    (hadd : addLamports o l dst n = .ok l₁) (hsub : subLamports o l₁ src n = .ok l') :
    l.Transfer l' src dst n ∧ ∀ key, (l'.get key).data = (l.get key).data := by
  obtain ⟨c, hc, hadd⟩ := bind_eq_ok.mp hadd
  obtain ⟨d, hd, hsub⟩ := bind_eq_ok.mp hsub
  replace hc := liftPanic_eq_ok hc
  replace hd := liftPanic_eq_ok hd
  have hl₁ : ∀ key, l₁.get key
      = { l.get key with lamports := if key = dst then c else (l.get key).lamports } := by
    intro key
    cases hadd
    exact get_set_lamports l dst key c
  have hl' : ∀ key, l'.get key
      = { l₁.get key with lamports := if key = src then d else (l₁.get key).lamports } := by
    intro key
    cases hsub
    exact get_set_lamports l₁ src key d
  have hsupply := hfit.imp_right fun hlt => (l.get_lamports_le src).trans_lt hlt
  have hd' : d = if src = dst then (l.get src).lamports else (l.get src).lamports - n := by
    rw [hl₁ src] at hd
    by_cases hsame : src = dst
    · rw [if_pos hsame] at hd ⊢
      rw [← hsame] at hc
      exact sub_of_add hle hsupply hc hd
    · rw [if_neg hsame] at hd ⊢
      rw [subU64_ok o hle] at hd
      cases hd
      rfl
  have hc' : src ≠ dst → c = (l.get dst).lamports + n := by
    intro hne
    refine addU64_eq_ok hc (hfit.imp_right fun hlt => ?_)
    have := l.add_le_total Account.default_lamports hne
    unfold lamports at hlt
    omega
  refine ⟨⟨hle, fun key => ?_, fun key => by rw [hl', hl₁], fun key hs hd => ?_⟩,
    fun key => by rw [hl', hl₁]⟩
  · rw [hl', hl₁]
    by_cases hs : key = src
    · subst hs
      by_cases hd : key = dst
      · simp only [if_pos hd, if_true, hd']
      · simp only [if_neg hd, if_true, hd']
        omega
    · by_cases hd : key = dst
      · subst hd
        simp only [if_neg hs, if_true, hc' (Ne.symm hs), Nat.add_zero]
      · simp only [if_neg hs, if_neg hd]
  · rw [hl', hl₁, if_neg hs, if_neg hd]

end Moving

/-! ## Writing a state -/

section Writing

variable {s : StakeState} {o : Overflow} {l l' : BankLedger} {key : Pubkey} {n : Nat}

/-- The state of one account is written, its balance and all other accounts are not. -/
structure Wrote (l l' : BankLedger) (key : Pubkey) (s : StakeState) : Prop where
  state : (l'.get key).data.stakeState = some s
  lamports : ∀ k, (l'.get k).lamports = (l.get k).lamports
  owner : ∀ k, (l'.get k).owner = (l.get k).owner
  frame : ∀ k, k ≠ key → l'.get k = l.get k

theorem setStateAt_wrote (h : setStateAt l key s = .ok l') : Wrote l l' key s := by
  obtain ⟨a, ha, h⟩ := bind_eq_ok.mp h
  cases h
  obtain ⟨hstate, -, hlamports, howner⟩ := Account.setState_eq_ok ha
  refine ⟨by rw [get_set_self, hstate], fun k => ?_, fun k => ?_, fun k hk => l.get_set_of_ne a hk⟩
  · rw [get_set]
    split
    · rename_i hk
      rw [hk, hlamports]
    · rfl
  · rw [get_set]
    split
    · rename_i hk
      rw [hk, howner]
    · rfl

theorem Fits.congr (h : Fits o l)
    (hlamports : ∀ key, (l'.get key).lamports = (l.get key).lamports) : Fits o l' :=
  h.imp_right fun hlt => (total_congr Account.default_lamports hlamports).trans_lt hlt

/-- The states of a ledger when the balance of an account is about to be taken. -/
theorem deinitializeIfEmptied_eq_ok (h : deinitializeIfEmptied l key n = .ok l') :
    (∀ k, (l'.get k).lamports = (l.get k).lamports) ∧ (∀ k, (l'.get k).owner = (l.get k).owner) ∧
      (∀ k, k ≠ key → l'.get k = l.get k) ∧
      (l'.get key).data.stakeState
        = if n = (l.get key).lamports then some .uninitialized
          else (l.get key).data.stakeState := by
  unfold deinitializeIfEmptied at h
  split at h
  · rename_i hall
    have hw := setStateAt_wrote h
    exact ⟨hw.lamports, hw.owner, hw.frame, by rw [if_pos hall, hw.state]⟩
  · rename_i hpart
    cases h
    exact ⟨fun _ => rfl, fun _ => rfl, fun _ _ => rfl, by rw [if_neg hpart]⟩

end Writing

/-! ## Splitting -/

section Splitting

variable {signers : Finset Pubkey} {s : StakeState} {info : Meta} {o : Overflow}
  {l l' l₁ : BankLedger} {src dst self split : Pubkey} {n reserve : Nat}

/-- What a split of `n` lamports makes of the state of its source: what the source keeps and what
the new account gets, for the balances of the two. -/
inductive SplitInto (o : Overflow) (n selfLamports splitLamports : Nat) :
    StakeState → StakeState → StakeState → Prop where
  | stake (info : Meta) (s : Stake) (delta amount reserve : Nat)
    (hdelta : delta ≤ s.delegation.stake)
      (hpart : n ≠ selfLamports → delta = n ∧
        ∃ needed, addU64 o n info.rentExemptReserve = .ok needed ∧ needed < selfLamports)
      (hnew : reserve + amount ≤ splitLamports + n) :
      SplitInto o n selfLamports splitLamports (.stake info s)
        (.stake info { s with
          delegation := { s.delegation with stake := s.delegation.stake - delta } })
        (.stake { info with rentExemptReserve := reserve }
          { s with delegation := { s.delegation with stake := amount } })
  | initialized (info : Meta) (reserve : Nat)
      (hpart : n ≠ selfLamports →
        ∃ needed, addU64 o n info.rentExemptReserve = .ok needed ∧ needed < selfLamports)
      (hnew : reserve ≤ splitLamports + n) :
      SplitInto o n selfLamports splitLamports (.initialized info) (.initialized info)
        (.initialized { info with rentExemptReserve := reserve })

theorem partialSplitShort_eq_ok {selfLamports splitLamports splitReserve : Nat}
    (h : partialSplitShort o n selfLamports reserve splitLamports splitReserve = .ok false)
    (hn : n ≠ selfLamports) :
    ∃ needed, addU64 o n reserve = .ok needed ∧ needed < selfLamports := by
  unfold partialSplitShort at h
  rw [if_pos hn] at h
  obtain ⟨needed, hneeded, h⟩ := bind_eq_ok.mp h
  refine ⟨needed, hneeded, ?_⟩
  simp only [Except.ok.injEq, Bool.or_eq_false_iff, decide_eq_false_iff_not] at h
  omega

/-- The states after `splitState`, which moves no lamports yet. -/
structure SplitStates (o : Overflow) (l l' : BankLedger) (src split : Pubkey) (n : Nat) : Prop where
  lamports : ∀ k, (l'.get k).lamports = (l.get k).lamports
  owner : ∀ k, (l'.get k).owner = (l.get k).owner
  frame : ∀ k, k ≠ src → k ≠ split → l'.get k = l.get k
  states : ∃ s kept moved, (l.get src).data.stakeState = some s ∧
    SplitInto o n (l.get src).lamports (l.get split).lamports s kept moved ∧
    (l'.get src).data.stakeState = some kept ∧ (l'.get split).data.stakeState = some moved

theorem splitInitialized_states (hself : (l.get self).data.stakeState = some (.initialized info))
    (hne : self ≠ split)
    (h : splitInitialized o l self split n info = .ok l') : SplitStates o l l' self split n := by
  obtain ⟨hreserve, h⟩ := ite_error_eq_ok.mp h
  obtain ⟨short, hshort, h⟩ := bind_eq_ok.mp h
  cases short with
  | true => cases h
  | false =>
    have hw := setStateAt_wrote h
    refine ⟨hw.lamports, hw.owner, fun k _ hk => hw.frame k hk, _, _, _, hself,
      .initialized info _ (partialSplitShort_eq_ok (liftPanic_eq_ok hshort)) ?_, ?_, hw.state⟩
    · omega
    · rw [hw.frame self hne, hself]

theorem Stake.split_eq_ok {s kept new : Stake} {delta amount : Nat}
    (h : s.split delta amount = .ok (kept, new)) : delta ≤ s.delegation.stake ∧
      kept = { s with delegation := { s.delegation with stake := s.delegation.stake - delta } } ∧
      new = { s with delegation := { s.delegation with stake := amount } } := by
  obtain ⟨hle, h⟩ := ite_error_eq_ok.mp h
  cases h
  exact ⟨Nat.not_lt.mp hle, rfl, rfl⟩

theorem splitStake_states {s : Stake} (hself : (l.get self).data.stakeState = some (.stake info s))
    (hne : self ≠ split) (h : splitStake o l self split n info s = .ok l') :
    SplitStates o l l' self split n := by
  unfold splitStake at h
  dsimp only at h
  obtain ⟨hprefunded, h⟩ := ite_error_eq_ok.mp h
  obtain ⟨hfull, h⟩ := ite_error_eq_ok.mp h
  obtain ⟨short, hshort, h⟩ := bind_eq_ok.mp h
  cases short with
  | true => cases h
  | false =>
    obtain ⟨⟨kept, new⟩, hsplit, h⟩ := bind_eq_ok.mp h
    obtain ⟨l₁, h₁, h⟩ := bind_eq_ok.mp h
    obtain ⟨hdelta, rfl, rfl⟩ := Stake.split_eq_ok hsplit
    have hw₁ := setStateAt_wrote h₁
    have hw := setStateAt_wrote h
    refine ⟨fun k => (hw.lamports k).trans (hw₁.lamports k),
      fun k => (hw.owner k).trans (hw₁.owner k),
      fun k hs hd => (hw.frame k hd).trans (hw₁.frame k hs), _, _, _, hself,
      .stake info s _ _ _ hdelta (fun hn => ⟨?_, ?_⟩) ?_, ?_, hw.state⟩
    · rw [if_neg hn]
    · exact partialSplitShort_eq_ok (liftPanic_eq_ok hshort) hn
    · -- All of it moves: the reserve is covered by the move itself.  Otherwise by the move together
      -- with what the new account already holds.
      split
      · omega
      · omega
    · rw [hw.frame self hne, hw₁.state]

/-- `splitState` writes nothing for a source that is uninitialized. -/
theorem splitState_eq_ok (hsplit : (l.get split).data.stakeState = some .uninitialized)
    (h : splitState o l self split n signers = .ok l') :
    ((l.get self).data.stakeState = some .uninitialized ∧ l' = l) ∨
      (self ≠ split ∧ SplitStates o l l' self split n) := by
  obtain ⟨s, hs, h⟩ := bind_eq_ok.mp h
  replace hs := Account.state_eq_ok.mp hs
  have hne : s ≠ .uninitialized → self ≠ split := by
    intro hs' heq
    rw [heq, hsplit, Option.some.injEq] at hs
    exact hs' hs.symm
  cases s with
  | uninitialized =>
    dsimp only at h
    split at h
    · cases h
    · cases h
      exact .inl ⟨hs, rfl⟩
  | initialized =>
    obtain ⟨_, -, h⟩ := bind_eq_ok.mp h
    have hne := hne (by simp)
    exact .inr ⟨hne, splitInitialized_states hs hne h⟩
  | stake =>
    obtain ⟨_, -, h⟩ := bind_eq_ok.mp h
    have hne := hne (by simp)
    exact .inr ⟨hne, splitStake_states hs hne h⟩
  | rewardsPool => cases h

/-- A transfer after states were written at its two ends. -/
theorem Transfer.of_states (hlamports : ∀ k, (l₁.get k).lamports = (l.get k).lamports)
    (howner : ∀ k, (l₁.get k).owner = (l.get k).owner)
    (hframe : ∀ k, k ≠ src → k ≠ dst → l₁.get k = l.get k) (h : l₁.Transfer l' src dst n) :
    l.Transfer l' src dst n where
  enough := hlamports src ▸ h.enough
  lamports k := by rw [h.lamports k, hlamports k]
  owner k := (h.owner k).trans (howner k)
  frame k hs hd := (h.frame k hs hd).trans (hframe k hs hd)

/-- **A split** moves `n` lamports to an account that was uninitialized.  A source that is
uninitialized changes no state; any other is a different account, keeps a part of its state, and is
uninitialized if it is emptied. -/
theorem split_effect (hfit : Fits o l) (h : StakeProgram.split o l self n split signers = .ok l') :
    l.Transfer l' self split n ∧ (l.get split).owner = id ∧
      (l.get split).data.stakeState = some .uninitialized ∧
      (((l.get self).data.stakeState = some .uninitialized ∧
          ∀ k, (l'.get k).data.stakeState = (l.get k).data.stakeState) ∨
        (self ≠ split ∧ ∃ s kept moved, (l.get self).data.stakeState = some s ∧
          SplitInto o n (l.get self).lamports (l.get split).lamports s kept moved ∧
          (l'.get self).data.stakeState =
            some (if n = (l.get self).lamports then .uninitialized else kept) ∧
          (l'.get split).data.stakeState = some moved)) := by
  unfold StakeProgram.split at h
  split at h
  · cases h
  rename_i howner
  obtain ⟨t, ht, h⟩ := bind_eq_ok.mp h
  cases t with
  | initialized => cases h
  | stake => cases h
  | rewardsPool => cases h
  | uninitialized =>
    obtain ⟨henough, h⟩ := ite_error_eq_ok.mp h
    replace ht := Account.state_eq_ok.mp ht
    obtain ⟨l₁, h₁, h⟩ := bind_eq_ok.mp h
    obtain ⟨l₂, h₂, h⟩ := bind_eq_ok.mp h
    obtain ⟨l₃, h₃, h₄⟩ := bind_eq_ok.mp h
    obtain ⟨hlam₂, hown₂, hframe₂, hstate₂⟩ := deinitializeIfEmptied_eq_ok h₂
    obtain ⟨hs, rfl⟩ | ⟨hne, hst⟩ := splitState_eq_ok ht h₁
    · obtain ⟨htransfer, hdata⟩ :=
        transfer_of_add_sub (hfit.congr hlam₂) (by rw [hlam₂]; omega) h₃ h₄
      refine ⟨Transfer.of_states hlam₂ hown₂ (fun k hk _ => hframe₂ k hk) htransfer,
        not_not.mp howner, ht,
        .inl ⟨hs, fun k => ?_⟩⟩
      rw [hdata]
      by_cases hk : k = self
      · rw [hk, hstate₂, hs, ite_self]
      · rw [hframe₂ k hk]
    · have hlam : ∀ k, (l₂.get k).lamports = (l.get k).lamports := fun k =>
        (hlam₂ k).trans (hst.lamports k)
      obtain ⟨htransfer, hdata⟩ := transfer_of_add_sub (hfit.congr hlam) (by rw [hlam]; omega) h₃ h₄
      obtain ⟨s, kept, moved, hs, hinto, hkept, hmoved⟩ := hst.states
      refine ⟨Transfer.of_states hlam (fun k => (hown₂ k).trans (hst.owner k))
          (fun k hk hk' => (hframe₂ k hk).trans (hst.frame k hk hk')) htransfer,
            not_not.mp howner, ht,
        .inr ⟨hne, s, kept, moved, hs, hinto, ?_, ?_⟩⟩
      · rw [hdata, hstate₂, hst.lamports, hkept]
        split <;> rfl
      · rw [hdata, hframe₂ split (Ne.symm hne), hmoved]

end Splitting

/-! ## Merging -/

section Merging

variable {signers : Finset Pubkey} {a : BankAccount} {s : StakeState} {clock : Clock} {s' : Stake}
  {history : StakeHistory} {info : Meta} {o : Overflow} {l l' : BankLedger} {key self : Pubkey}
  {n : Nat} {kind : MergeKind} {u : Unit} {merged : Option StakeState}

/-- What a merge makes of the state of its destination, for a source with the given balance. -/
inductive MergeInto (o : Overflow) (sourceLamports : Nat) :
    StakeState → StakeState → StakeState → Prop where
  | unchanged (dest source : StakeState) (lockup : Lockup) (hdest : dest.lockup = some lockup)
      (hsource : source.lockup = some lockup) : MergeInto o sourceLamports dest source dest
  | grown (info : Meta) (s : Stake) (source : StakeState) (added stake : Nat)
      (hlockup : source.lockup = some info.lockup)
      (hadd : addU64 o s.delegation.stake added = .ok stake)
      (hadded : added = sourceLamports ∨ ∃ sourceInfo sourceStake,
        source = .stake sourceInfo sourceStake ∧
        sourceStake.delegation.deactivationEpoch = EPOCH_MAX ∧
        (added = sourceStake.delegation.stake ∨
          addU64 o sourceInfo.rentExemptReserve sourceStake.delegation.stake = .ok added)) :
      MergeInto o sourceLamports (.stake info s) source
        (.stake info { s with delegation := { s.delegation with stake := stake } })

/-- How the kind of an account for a merge follows from its state. -/
def KindOf (a : BankAccount) (s : StakeState) : MergeKind → Prop
  | .inactive info n => s.getMeta = some info ∧ n = a.lamports
  | .activationEpoch info stake => s = .stake info stake
  | .fullyActive info stake => s = .stake info stake

theorem KindOf.getMeta (h : KindOf a s kind) : s.getMeta = some kind.getMeta := by
  cases kind with
  | inactive => exact h.1
  | activationEpoch info stake => rw [show s = .stake info stake from h]; rfl
  | fullyActive info stake => rw [show s = .stake info stake from h]; rfl

theorem KindOf.lockup (h : KindOf a s kind) : s.lockup = some kind.getMeta.lockup := by
  rw [StakeState.lockup, h.getMeta, Option.map_some]

theorem getIfMergeable_eq_ok (h : MergeKind.getIfMergeable a clock history = .ok kind) :
    ∃ s, a.data.stakeState = some s ∧ KindOf a s kind := by
  obtain ⟨s, hs, h⟩ := bind_eq_ok.mp h
  refine ⟨s, Account.state_eq_ok.mp hs, ?_⟩
  cases s with
  | uninitialized => cases h
  | rewardsPool => cases h
  | initialized =>
    cases h
    exact ⟨rfl, rfl⟩
  | stake =>
    dsimp only at h
    split at h
    · cases h
      exact ⟨rfl, rfl⟩
    · cases h
      rfl
    · cases h
      rfl
    · cases h

theorem metasCanMerge_eq_ok {stake source : Meta}
    (h : MergeKind.metasCanMerge stake source = .ok u) : stake.lockup = source.lockup := by
  obtain ⟨hsame, h⟩ := ite_eq_ok.mp h
  exact hsame.2

/-- Two active stakes are merged only if neither was deactivated. -/
theorem activeStakesCanMerge_eq_ok {stake source : Stake}
    (h : MergeKind.activeStakesCanMerge stake source = .ok u) :
    source.delegation.deactivationEpoch = EPOCH_MAX := by
  obtain ⟨_, h, -⟩ := bind_eq_ok.mp h
  obtain ⟨hsame, h⟩ := ite_eq_ok.mp h
  exact hsame.2.2.2

theorem addStake_eq_ok {s : Stake} (h : MergeKind.addStake o s n = .ok s') :
    ∃ stake, addU64 o s.delegation.stake n = .ok stake ∧
      s' = { s with delegation := { s.delegation with stake := stake } } := by
  obtain ⟨stake, hstake, h⟩ := bind_eq_ok.mp h
  cases h
  exact ⟨stake, liftPanic_eq_ok hstake, rfl⟩

theorem mergeKind_merge_into {dest source : BankAccount} {t : StakeState} {sourceKind : MergeKind}
    (hkind : KindOf dest s kind) (hsource : KindOf source t sourceKind)
    (h : kind.merge o sourceKind = .ok merged) :
    MergeInto o source.lamports s t (merged.getD s) := by
  obtain ⟨_, hmetas, h⟩ := bind_eq_ok.mp h
  obtain ⟨_, hactive, h⟩ := bind_eq_ok.mp h
  have hlockup := metasCanMerge_eq_ok hmetas
  have hs := hkind.lockup
  have ht := hsource.lockup
  rw [← hlockup] at ht
  cases kind with
  | inactive =>
    cases sourceKind with
    | inactive =>
      cases h
      exact .unchanged s t _ hs ht
    | activationEpoch =>
      cases h
      exact .unchanged s t _ hs ht
    | fullyActive => cases h
  | activationEpoch info stake =>
    cases hkind
    cases sourceKind with
    | inactive info' n' =>
      obtain ⟨stake', hstake, h⟩ := bind_eq_ok.mp h
      obtain ⟨total, hadd, rfl⟩ := addStake_eq_ok hstake
      cases h
      exact .grown info stake t n' total ht hadd (.inl hsource.2)
    | activationEpoch info' stake' =>
      obtain ⟨added, hadded, h⟩ := bind_eq_ok.mp h
      obtain ⟨_, hstake, h⟩ := bind_eq_ok.mp h
      obtain ⟨total, hadd, rfl⟩ := addStake_eq_ok hstake
      cases h
      exact .grown info stake t added total ht hadd
        (.inr ⟨info', stake', hsource, activeStakesCanMerge_eq_ok hactive,
          .inr (liftPanic_eq_ok hadded)⟩)
    | fullyActive => cases h
  | fullyActive info stake =>
    cases hkind
    cases sourceKind with
    | inactive => cases h
    | activationEpoch => cases h
    | fullyActive info' stake' =>
      obtain ⟨_, hstake, h⟩ := bind_eq_ok.mp h
      obtain ⟨total, hadd, rfl⟩ := addStake_eq_ok hstake
      cases h
      exact .grown info stake t _ total ht hadd
        (.inr ⟨info', stake', hsource, activeStakesCanMerge_eq_ok hactive, .inl rfl⟩)

theorem setMerged_eq_ok (hs : (l.get key).data.stakeState = some s)
    (h : setMerged l key merged = .ok l') : Wrote l l' key (merged.getD s) := by
  cases merged with
  | none =>
    cases h
    exact ⟨hs, fun _ => rfl, fun _ => rfl, fun _ _ => rfl⟩
  | some => exact setStateAt_wrote h

/-- **A merge** drains the source into another account and leaves it uninitialized. -/
theorem merge_effect {source : Pubkey} (hfit : Fits o l)
    (h : merge o l self source clock history signers = .ok l') :
    l.Transfer l' source self (l.get source).lamports ∧ source ≠ self ∧ (l.get source).owner = id ∧
      ∃ s t s', (l.get self).data.stakeState = some s ∧ (l.get source).data.stakeState = some t ∧
        MergeInto o (l.get source).lamports s t s' ∧ (l'.get self).data.stakeState = some s' ∧
        (l'.get source).data.stakeState = some .uninitialized := by
  unfold merge at h
  split at h
  · cases h
  rename_i howner
  split at h
  · cases h
  rename_i hne
  obtain ⟨kind, hkind, h⟩ := bind_eq_ok.mp h
  obtain ⟨_, -, h⟩ := bind_eq_ok.mp h
  obtain ⟨sourceKind, hsourceKind, h⟩ := bind_eq_ok.mp h
  obtain ⟨merged, hmerged, h⟩ := bind_eq_ok.mp h
  obtain ⟨l₁, h₁, h⟩ := bind_eq_ok.mp h
  obtain ⟨l₂, h₂, h⟩ := bind_eq_ok.mp h
  obtain ⟨l₃, h₃, h₄⟩ := bind_eq_ok.mp h
  obtain ⟨s, hs, hkindOf⟩ := getIfMergeable_eq_ok hkind
  obtain ⟨t, ht, hsourceOf⟩ := getIfMergeable_eq_ok hsourceKind
  have hw₁ := setMerged_eq_ok hs h₁
  have hw₂ := setStateAt_wrote h₂
  have hlam : ∀ k, (l₂.get k).lamports = (l.get k).lamports := fun k =>
    (hw₂.lamports k).trans (hw₁.lamports k)
  obtain ⟨htransfer, hdata⟩ := transfer_of_sub_add (hfit.congr hlam) le_rfl h₃ h₄
  refine ⟨Transfer.of_states hlam (fun k => (hw₂.owner k).trans (hw₁.owner k))
      (fun k hk hk' => (hw₂.frame k hk).trans (hw₁.frame k hk')) (hlam source ▸ htransfer), hne,
    not_not.mp howner, s, t, merged.getD s, hs, ht, mergeKind_merge_into hkindOf hsourceOf hmerged,
      ?_, ?_⟩
  · rw [hdata, hw₂.frame self (Ne.symm hne), hw₁.state]
  · rw [hdata, hw₂.state]

end Merging

/-! ## Withdrawing -/

section Withdrawing

variable {signers : Finset Pubkey} {clock : Clock} {history : StakeHistory} {o : Overflow}
  {l l' : BankLedger} {key self : Pubkey} {n reserve balance : Nat} {u : Unit}

theorem exceedsBalance_eq_ok (h : exceedsBalance o true n reserve balance = .ok false)
    (hfit : o = .checked ∨ n + reserve < U64) : n + reserve ≤ balance := by
  obtain ⟨needed, hneeded, h⟩ := bind_eq_ok.mp h
  have := addU64_eq_ok hneeded hfit
  simp only [Except.ok.injEq, decide_eq_false_iff_not] at h
  omega

theorem checkWithdrawal_eq_ok {isStaked : Bool}
    (h : checkWithdrawal o n reserve balance isStaked = .ok u)
    (hn : n ≠ balance) : exceedsBalance o true n reserve balance = .ok false := by
  obtain ⟨stakedShort, -, h⟩ := bind_eq_ok.mp h
  cases stakedShort with
  | true => cases h
  | false =>
    obtain ⟨short, hshort, h⟩ := bind_eq_ok.mp h
    rw [decide_eq_true hn] at hshort
    cases short with
    | true =>
      obtain ⟨_, -, h⟩ := bind_eq_ok.mp h
      cases h
    | false => exact liftPanic_eq_ok hshort

theorem checkWithdraw_eq_ok {authority : KeyedAccount} {custodian : Option KeyedAccount}
    (h : checkWithdraw o l self n clock history authority custodian = .ok u) :
    ∃ key lockup reserve isStaked, authority.signerKey = some key ∧
      withdrawTerms o (l.get self) self clock history {key} = .ok (lockup, reserve, isStaked) ∧
      lockup.isInForce clock (custodian.bind KeyedAccount.signerKey) = false ∧
      checkWithdrawal o n reserve (l.get self).lamports isStaked = .ok u := by
  unfold checkWithdraw at h
  split at h
  · cases h
  · rename_i key hkey
    obtain ⟨⟨lockup, reserve, isStaked⟩, hterms, h⟩ := bind_eq_ok.mp h
    obtain ⟨hforce, h⟩ := ite_error_eq_ok.mp h
    exact ⟨key, lockup, reserve, isStaked, hkey, hterms, Bool.eq_false_iff.mpr hforce, h⟩

/-- What `withdraw` writes after its checks. -/
theorem withdraw_writes {dest : Pubkey} (hfit : Fits o l) (henough : n ≤ (l.get self).lamports)
    (h : (do let l ← deinitializeIfEmptied l self n; let l ← subLamports o l self n; addLamports o l dest n) = .ok l') :
    l.Transfer l' self dest n ∧
      (l'.get self).data.stakeState
        = (if n = (l.get self).lamports then some .uninitialized
          else (l.get self).data.stakeState) ∧
      ∀ k, k ≠ self → (l'.get k).data = (l.get k).data := by
  obtain ⟨l₁, h₁, h⟩ := bind_eq_ok.mp h
  obtain ⟨l₂, h₂, h₃⟩ := bind_eq_ok.mp h
  obtain ⟨hlam, hown, hframe, hstate⟩ := deinitializeIfEmptied_eq_ok h₁
  obtain ⟨htransfer, hdata⟩ := transfer_of_sub_add (hfit.congr hlam) (hlam self ▸ henough) h₂ h₃
  refine ⟨Transfer.of_states hlam hown (fun k hk _ => hframe k hk) htransfer, ?_, fun k hk => ?_⟩
  · rw [hdata, hstate]
  · rw [hdata, hframe k hk]

/-- The amount of a withdrawal and the reserve it leaves add up to a `u64`, or the build checks. -/
def WithdrawFits (o : Overflow) (l : BankLedger) (self : Pubkey) (n : Nat) (clock : Clock)
    (history : StakeHistory) : Prop :=
  ∀ signers lockup reserve isStaked,
    withdrawTerms o (l.get self) self clock history signers = .ok (lockup, reserve, isStaked) →
    o = .checked ∨ n + reserve < U64

/-- **A withdrawal** leaves the reserve or empties the account, which is then uninitialized; the
lockup is not in force. -/
theorem withdraw_effect {dest : Pubkey} {authority : KeyedAccount} {custodian : Option KeyedAccount}
    (hfit : Fits o l) (hrange : WithdrawFits o l self n clock history)
    (h : withdraw o l self n dest clock history authority custodian = .ok l') :
    l.Transfer l' self dest n ∧
      (∃ signers lockup reserve isStaked,
        withdrawTerms o (l.get self) self clock history signers = .ok (lockup, reserve, isStaked) ∧
        lockup.isInForce clock (custodian.bind KeyedAccount.signerKey) = false ∧
        (n ≠ (l.get self).lamports → n + reserve ≤ (l.get self).lamports)) ∧
      (l'.get self).data.stakeState
        = (if n = (l.get self).lamports then some .uninitialized
          else (l.get self).data.stakeState) ∧
      ∀ k, k ≠ self → (l'.get k).data = (l.get k).data := by
  obtain ⟨_, hcheck, h⟩ := bind_eq_ok.mp h
  obtain ⟨_, lockup, reserve, isStaked, -, hterms, hforce, hcheck⟩ := checkWithdraw_eq_ok hcheck
  have hleft : n ≠ (l.get self).lamports → n + reserve ≤ (l.get self).lamports := fun hn =>
    exceedsBalance_eq_ok (checkWithdrawal_eq_ok hcheck hn) (hrange _ _ _ _ hterms)
  have henough : n ≤ (l.get self).lamports := by
    by_cases hn : n = (l.get self).lamports
    · exact hn.le
    · omega
  obtain ⟨htransfer, hstate, hframe⟩ := withdraw_writes hfit henough h
  exact ⟨htransfer, ⟨_, lockup, reserve, isStaked, hterms, hforce, hleft⟩, hstate, hframe⟩

end Withdrawing

/-! ## Every instruction -/

section Dispatch

variable {o : Overflow} {l l' : BankLedger} {split : Pubkey} {n : Nat}
  {keyedAccounts : List KeyedAccount}

/-- What an instruction that returns has done to the ledger. -/
inductive Effect (o : Overflow) (sysvars : Sysvars) (signers : Finset Pubkey) (l l' : BankLedger) :
    Prop where
  | rewrite (key : Pubkey) (a' : BankAccount) (howner : (l.get key).owner = id)
      (hrewrites : Rewrites signers (l.get key) a') (hset : l' = l.set key a')
  | split (src dst : Pubkey) (n : Nat) (howner : (l.get src).owner = id)
      (h : StakeProgram.split o l src n dst signers = .ok l')
  | merge (dst src : Pubkey) (howner : (l.get dst).owner = id)
      (h : StakeProgram.merge o l dst src sysvars.clock sysvars.stakeHistory signers = .ok l')
  | withdraw (src dst : Pubkey) (n : Nat) (authority : KeyedAccount)
    (custodian : Option KeyedAccount)
      (howner : (l.get src).owner = id)
      (hcustodian : ∀ key, custodian.bind KeyedAccount.signerKey = some key → key ∈ signers)
      (hrange : WithdrawFits o l src n sysvars.clock sysvars.stakeHistory)
      (h : StakeProgram.withdraw o l src n dst sysvars.clock sysvars.stakeHistory
        authority custodian
        = .ok l')

def InRange (o : Overflow) (sysvars : Sysvars) (l : BankLedger)
    (keyedAccounts : List KeyedAccount) : StakeInstruction → Prop
  | .withdraw n => ∀ me ∈ keyedAccounts.head?,
    WithdrawFits o l me.key n sysvars.clock sysvars.stakeHistory
  | _ => True

theorem inRange_checked (sysvars : Sysvars) (l : BankLedger) (keyedAccounts : List KeyedAccount)
    (instruction : StakeInstruction) : InRange .checked sysvars l keyedAccounts instruction := by
  cases instruction with
  | withdraw => exact fun _ _ _ _ _ _ _ => .inl rfl
  | _ => trivial

theorem fromKeyedAccount_eq_ok {α : Type} {address : Pubkey} {value v : α}
    {rest : List KeyedAccount} (h : fromKeyedAccount address value keyedAccounts = .ok (v, rest)) :
    v = value ∧ ∃ k, keyedAccounts = k :: rest := by
  obtain ⟨⟨k, rest'⟩, hk, h⟩ := bind_eq_ok.mp h
  dsimp only at h
  split at h
  · cases h
    exact ⟨rfl, k, nextKeyedAccount_eq_ok hk⟩
  · cases h

/-- **Everything an instruction can do.** -/
theorem processInstruction_effect {hashv : Pubkey → String → Pubkey → Pubkey} {sysvars : Sysvars}
    {instruction : StakeInstruction} (hrange : InRange o sysvars l keyedAccounts instruction)
    (h : processInstruction hashv o sysvars l keyedAccounts instruction = .ok l') :
    Effect o sysvars (KeyedAccount.getSigners keyedAccounts) l l' := by
  obtain ⟨⟨me, rest⟩, hme, h⟩ := bind_eq_ok.mp h
  have hkeyed := nextKeyedAccount_eq_ok hme
  dsimp only at h
  split at h
  · cases h
  rename_i howner
  replace howner := not_not.mp howner
  cases instruction with
  | initializeStake =>
    obtain ⟨⟨rent, _⟩, -, h⟩ := bind_eq_ok.mp h
    obtain ⟨a, ha, h⟩ := bind_eq_ok.mp h
    cases h
    exact .rewrite me.key a howner (initializeStake_rewrites _ ha) rfl
  | authorize =>
    obtain ⟨a, ha, h⟩ := bind_eq_ok.mp h
    cases h
    exact .rewrite me.key a howner (authorize_rewrites ha) rfl
  | authorizeWithSeed =>
    obtain ⟨⟨base, _⟩, -, h⟩ := bind_eq_ok.mp h
    obtain ⟨signers, -, h⟩ := bind_eq_ok.mp h
    obtain ⟨a, ha, h⟩ := bind_eq_ok.mp h
    cases h
    exact .rewrite me.key a howner (authorize_rewrites ha) rfl
  | delegateStake =>
    obtain ⟨⟨vote, _⟩, -, h⟩ := bind_eq_ok.mp h
    obtain ⟨⟨clock, _⟩, -, h⟩ := bind_eq_ok.mp h
    obtain ⟨⟨history, _⟩, -, h⟩ := bind_eq_ok.mp h
    obtain ⟨⟨config, _⟩, -, h⟩ := bind_eq_ok.mp h
    obtain ⟨a, ha, h⟩ := bind_eq_ok.mp h
    cases h
    exact .rewrite me.key a howner (delegate_rewrites ha) rfl
  | split n =>
    obtain ⟨⟨dst, _⟩, -, h⟩ := bind_eq_ok.mp h
    exact .split me.key dst.key n howner h
  | merge =>
    obtain ⟨⟨src, _⟩, -, h⟩ := bind_eq_ok.mp h
    obtain ⟨⟨clock, _⟩, hclock, h⟩ := bind_eq_ok.mp h
    obtain ⟨⟨history, _⟩, hhistory, h⟩ := bind_eq_ok.mp h
    obtain ⟨rfl, -⟩ := fromKeyedAccount_eq_ok hclock
    obtain ⟨rfl, -⟩ := fromKeyedAccount_eq_ok hhistory
    exact .merge me.key src.key howner h
  | withdraw n =>
    obtain ⟨⟨dst, rest₁⟩, h₁, h⟩ := bind_eq_ok.mp h
    obtain ⟨⟨clock, rest₂⟩, hclock, h⟩ := bind_eq_ok.mp h
    obtain ⟨⟨history, rest₃⟩, hhistory, h⟩ := bind_eq_ok.mp h
    obtain ⟨⟨authority, rest₄⟩, h₄, h⟩ := bind_eq_ok.mp h
    obtain ⟨rfl, k₂, h₂⟩ := fromKeyedAccount_eq_ok hclock
    obtain ⟨rfl, k₃, h₃⟩ := fromKeyedAccount_eq_ok hhistory
    have hwithin : keyedAccounts = me :: dst :: k₂ :: k₃ :: authority :: rest₄ := by
      replace h₂ : rest₁ = k₂ :: rest₂ := h₂
      replace h₃ : rest₂ = k₃ :: rest₃ := h₃
      have h₄ : rest₃ = authority :: rest₄ := nextKeyedAccount_eq_ok h₄
      rw [hkeyed, nextKeyedAccount_eq_ok h₁, h₂, h₃, h₄]
    refine .withdraw me.key dst.key n authority rest₄.head? howner (fun key hkey => ?_)
      (hrange me (by rw [hkeyed]; rfl)) h
    obtain ⟨k, hk, hsigner⟩ := Option.bind_eq_some_iff.mp hkey
    unfold KeyedAccount.signerKey at hsigner
    split at hsigner
    · rename_i hsigned
      cases hsigner
      refine KeyedAccount.mem_getSigners.mpr ⟨k, ?_, hsigned, rfl⟩
      rw [hwithin]
      simp [List.mem_of_mem_head? hk]
    · cases hsigner
  | deactivate =>
    obtain ⟨⟨clock, _⟩, -, h⟩ := bind_eq_ok.mp h
    obtain ⟨a, ha, h⟩ := bind_eq_ok.mp h
    cases h
    exact .rewrite me.key a howner (deactivate_rewrites ha) rfl
  | setLockup =>
    obtain ⟨a, ha, h⟩ := bind_eq_ok.mp h
    cases h
    exact .rewrite me.key a howner (setLockup_rewrites ha) rfl

end Dispatch

end Panoptes.StakeProgram
