import Panoptes.Lib.Runs
import Panoptes.Stake.Effects

/-!
# Locked stake stays locked

Runs of stake instructions, and what they do to the lamports under one lockup.  A lockup in force
keeps its funds in accounts with that lockup unless its custodian signs: a withdrawal is refused, a
split copies the lockup, a merge needs the same lockup on both sides, and only the custodian changes
it.

* `Call`, `Call.run` — an instruction with its accounts and the sysvars of its block.
* `Locked`, `heldUnder` — the accounts under a lockup and what they hold.
* `heldUnder_le_of_transfer` — a transfer keeps the funds if what leaves a locked account arrives in
  one.

Principal result: `lockedFunds_kept`, over every run.
-/

set_option autoImplicit false

namespace Panoptes.StakeProgram

open Lib Sdk Panoptes.Runtime

/-! ## Runs -/

/-- A stake instruction of a transaction. -/
structure Call where
  sysvars : Sysvars
  keyedAccounts : List KeyedAccount
  instruction : StakeInstruction

def Call.run (hashv : Pubkey → String → Pubkey → Pubkey) (o : Overflow)
    (l : BankLedger) (c : Call) : Res InstructionError BankLedger :=
  processInstruction hashv o c.sysvars l c.keyedAccounts c.instruction

def Call.signers (c : Call) : Finset Pubkey := KeyedAccount.getSigners c.keyedAccounts

/-- The instructions that leave a lockup alone: it is in force, its custodian does not sign, and the
amounts of a withdrawal add up to a `u64`. -/
structure Call.Respects (o : Overflow) (lockup : Lockup) (l : BankLedger) (c : Call) : Prop where
  inForce : lockup.isInForce c.sysvars.clock none = true
  unsigned : lockup.custodian ∉ c.signers
  inRange : InRange o c.sysvars l c.keyedAccounts c.instruction

/-! ## Funds under a lockup -/

variable {lockup : Lockup} {a : BankAccount} {s : StakeState} {signers : Finset Pubkey}
  {o : Overflow}

def Locked (lockup : Lockup) (a : BankAccount) : Prop :=
  a.owner = id ∧ a.data.stakeState.bind StakeState.lockup = some lockup

instance (lockup : Lockup) (a : BankAccount) : Decidable (Locked lockup a) :=
  inferInstanceAs (Decidable (_ ∧ _))

def lockedLamports (lockup : Lockup) (a : BankAccount) : Nat :=
  if Locked lockup a then a.lamports else 0

/-- The lamports of all stake accounts under a lockup. -/
def heldUnder (lockup : Lockup) (l : BankLedger) : Nat := l.total (lockedLamports lockup)

theorem lockedLamports_default (lockup : Lockup) : lockedLamports lockup default = 0 :=
  if_neg fun h => absurd h.1 (by decide)

theorem lockedLamports_of_locked (h : Locked lockup a) :
    lockedLamports lockup a = a.lamports := if_pos h

theorem lockedLamports_of_not (h : ¬ Locked lockup a) : lockedLamports lockup a = 0 := if_neg h

theorem lockedLamports_le (lockup : Lockup) (a : BankAccount) :
    lockedLamports lockup a ≤ a.lamports := by
  unfold lockedLamports
  split <;> omega

theorem not_locked (hs : a.data.stakeState = some s) (h : s.lockup ≠ some lockup) :
    ¬ Locked lockup a := by
  intro hl
  refine h ?_
  rw [← hl.2, hs, Option.bind_some]

theorem locked_iff (hs : a.data.stakeState = some s) :
    Locked lockup a ↔ a.owner = id ∧ s.lockup = some lockup := by
  rw [Locked, hs, Option.bind_some]

/-- **A transfer keeps the funds under a lockup** if what leaves an account under it arrives in
another one, and the first stays under it or is emptied. -/
theorem heldUnder_le_of_transfer {l l' : BankLedger} {src dst : Pubkey} {n : Nat}
    (h : l.Transfer l' src dst n)
    (hsrc : Locked lockup (l.get src) → src ≠ dst ∧ Locked lockup (l'.get dst) ∧
      (Locked lockup (l'.get src) ∨ n = (l.get src).lamports))
    (hdst : src ≠ dst → Locked lockup (l.get dst) → Locked lockup (l'.get dst)) :
    heldUnder lockup l ≤ heldUnder lockup l' := by
  by_cases hne : src = dst
  · -- The account is not under the lockup, and no other account changes.
    refine Ledger.total_mono (lockedLamports_default lockup) fun key => ?_
    by_cases hkey : key = src
    · rw [hkey, lockedLamports_of_not fun hl => (hsrc hl).1 hne]
      exact Nat.zero_le _
    · rw [h.frame key hkey (hne ▸ hkey)]
  · have htotal := Ledger.total_two (lockedLamports_default lockup) hne h.frame
    have hs := h.lamports src
    have hd := h.lamports dst
    simp only [if_neg (Ne.symm hne), if_true] at hs hd
    have hpair : lockedLamports lockup (l.get src) + lockedLamports lockup (l.get dst)
        ≤ lockedLamports lockup (l'.get src) + lockedLamports lockup (l'.get dst) := by
      by_cases hl : Locked lockup (l.get src)
      · obtain ⟨-, hl', hrest⟩ := hsrc hl
        have := lockedLamports_le lockup (l.get dst)
        rw [lockedLamports_of_locked hl, lockedLamports_of_locked hl']
        cases hrest with
        | inl hstay =>
          rw [lockedLamports_of_locked hstay]
          omega
        | inr => omega
      · rw [lockedLamports_of_not hl]
        by_cases hld : Locked lockup (l.get dst)
        · rw [lockedLamports_of_locked hld, lockedLamports_of_locked (hdst hne hld)]
          omega
        · rw [lockedLamports_of_not hld]
          exact Nat.zero_le _
    unfold heldUnder
    omega

/-! ## One instruction -/

/-- Without the custodian's signature a rewrite keeps the lockup. -/
theorem Rewrites.locked {a' : BankAccount} (h : Rewrites signers a a')
    (hsigners : lockup.custodian ∉ signers) (hl : Locked lockup a) :
    Locked lockup a' := by
  obtain ⟨s, s', hs, hs', -, howner, hrewrite⟩ := h
  obtain ⟨hid, hlockup⟩ := (locked_iff hs).mp hl
  refine (locked_iff hs').mpr ⟨howner.trans hid, ?_⟩
  cases hrewrite with
  | initialized => cases hlockup
  | authorizedInitialized => exact hlockup
  | authorizedStake => exact hlockup
  | lockupInitialized info new hsigned =>
    cases hlockup
    exact absurd hsigned hsigners
  | lockupStake info new stake hsigned =>
    cases hlockup
    exact absurd hsigned hsigners
  | delegated => exact hlockup
  | redelegated => exact hlockup
  | deactivated => exact hlockup

/-- Both parts of a split have the lockup of the source. -/
theorem SplitInto.lockup_eq {n selfLamports splitLamports : Nat} {kept moved : StakeState}
    (h : SplitInto o n selfLamports splitLamports s kept moved) :
    kept.lockup = s.lockup ∧ moved.lockup = s.lockup := by
  cases h with
  | stake => exact ⟨rfl, rfl⟩
  | initialized => exact ⟨rfl, rfl⟩

theorem MergeInto.lockup_eq {sourceLamports : Nat} {t s' : StakeState}
    (h : MergeInto o sourceLamports s t s') : s'.lockup = s.lockup ∧ t.lockup = s.lockup := by
  cases h with
  | unchanged _ _ lockup hdest hsource => exact ⟨rfl, hsource.trans hdest.symm⟩
  | grown info stake _ added total hlockup => exact ⟨rfl, hlockup⟩

/-- The lockup a withdrawal is checked against is that of the account. -/
theorem withdrawTerms_lockup {key : Pubkey} {clock : Clock} {history : StakeHistory}
    {lockup' : Lockup} {reserve : Nat} {isStaked : Bool}
    (h : withdrawTerms o a key clock history signers = .ok (lockup', reserve, isStaked))
    (hl : Locked lockup a) : lockup' = lockup := by
  obtain ⟨s, hs, h⟩ := bind_eq_ok.mp h
  obtain ⟨-, hlockup⟩ := (locked_iff (Account.state_eq_ok.mp hs)).mp hl
  cases s with
  | uninitialized => cases hlockup
  | rewardsPool => cases hlockup
  | initialized =>
    obtain ⟨_, -, h⟩ := bind_eq_ok.mp h
    cases h
    cases hlockup
    rfl
  | stake =>
    obtain ⟨_, -, h⟩ := bind_eq_ok.mp h
    obtain ⟨reserve, -, h⟩ := bind_eq_ok.mp h
    cases h
    cases hlockup
    rfl

/-- A lockup that is in force stays in force for any other custodian. -/
theorem isInForce_of_none {clock : Clock} {custodian : Option Pubkey}
    (h : lockup.isInForce clock none = true) (hc : custodian ≠ some lockup.custodian) :
    lockup.isInForce clock custodian = true := by
  unfold Lockup.isInForce at h ⊢
  rw [if_neg (by simp)] at h
  rw [if_neg hc, h]

/-- **One instruction** keeps the supply and the funds under a lockup. -/
theorem Effect.heldUnder_le {sysvars : Sysvars} {l l' : BankLedger} (hfit : Fits o l)
    (hforce : lockup.isInForce sysvars.clock none = true) (hsigners : lockup.custodian ∉ signers)
    (h : Effect o sysvars signers l l') :
    l'.lamports = l.lamports ∧ heldUnder lockup l ≤ heldUnder lockup l' := by
  cases h with
  | rewrite key a' howner hrewrites hset =>
    subst hset
    have hlam : a'.lamports = (l.get key).lamports := by
      obtain ⟨_, _, -, -, hlam, -, -⟩ := hrewrites
      exact hlam
    have hsupply := l.lamports_set key a'
    have htotal := l.total_set (lockedLamports_default lockup) key a'
    have hle : lockedLamports lockup (l.get key) ≤ lockedLamports lockup a' := by
      by_cases hl : Locked lockup (l.get key)
      · rw [lockedLamports_of_locked hl, lockedLamports_of_locked (hrewrites.locked hsigners hl),
          hlam]
      · rw [lockedLamports_of_not hl]
        exact Nat.zero_le _
    unfold heldUnder
    omega
  | split src dst n howner hrun =>
    obtain ⟨htransfer, hid, hdst, hcases⟩ := split_effect hfit hrun
    refine ⟨htransfer.lamports_eq, heldUnder_le_of_transfer htransfer (fun hl => ?_) fun _ hl => ?_⟩
    · obtain ⟨hs, -⟩ | ⟨hne, s, kept, moved, hs, hinto, hkept, hmoved⟩ := hcases
      · exact absurd hl (not_locked hs (by simp [StakeState.lockup, StakeState.getMeta]))
      · obtain ⟨hown, hlockup⟩ := (locked_iff hs).mp hl
        refine ⟨hne, (locked_iff hmoved).mpr ⟨(htransfer.owner dst).trans hid,
          hinto.lockup_eq.2.trans hlockup⟩, ?_⟩
        by_cases hall : n = (l.get src).lamports
        · exact .inr hall
        · rw [if_neg hall] at hkept
          exact .inl ((locked_iff hkept).mpr ⟨(htransfer.owner src).trans hown,
            hinto.lockup_eq.1.trans hlockup⟩)
    · exact absurd hl (not_locked hdst (by simp [StakeState.lockup, StakeState.getMeta]))
  | merge dst src howner hrun =>
    obtain ⟨htransfer, hne, hid, s, t, s', hs, ht, hinto, hs', ht'⟩ := merge_effect hfit hrun
    have hlockups := hinto.lockup_eq
    refine ⟨htransfer.lamports_eq, heldUnder_le_of_transfer htransfer (fun hl => ?_) fun _ hl => ?_⟩
    · obtain ⟨-, hlockup⟩ := (locked_iff ht).mp hl
      refine ⟨hne, (locked_iff hs').mpr ⟨(htransfer.owner dst).trans howner, ?_⟩, .inr rfl⟩
      rw [hlockups.1, ← hlockups.2, hlockup]
    · obtain ⟨-, hlockup⟩ := (locked_iff hs).mp hl
      exact (locked_iff hs').mpr ⟨(htransfer.owner dst).trans howner, hlockups.1.trans hlockup⟩
  | withdraw src dst n authority custodian howner hcustodian hrange hrun =>
    obtain ⟨htransfer, ⟨_, lockup', reserve, isStaked, hterms, hfree, -⟩, -, hdata⟩ :=
      withdraw_effect hfit hrange hrun
    refine ⟨htransfer.lamports_eq, heldUnder_le_of_transfer htransfer (fun hl => ?_)
      fun hne hl => ?_⟩
    · -- The lockup of the account is in force, so the withdrawal would have failed.
      rw [withdrawTerms_lockup hterms hl, isInForce_of_none hforce fun hc =>
        hsigners (hcustodian _ hc)] at hfree
      cases hfree
    · exact ⟨(htransfer.owner dst).trans hl.1, by rw [hdata dst (Ne.symm hne), hl.2]⟩

/-! ## Runs -/

/-- **Locked funds do not leave without the custodian.**  Over every run of instructions under whose
clocks the lockup is in force and that its custodian does not sign, the lamports of the stake
accounts under the lockup do not decrease. -/
theorem lockedFunds_kept (hashv : Pubkey → String → Pubkey → Pubkey) (o : Overflow)
    (lockup : Lockup) {start l : BankLedger} (hsupply : o = .checked ∨ start.lamports < U64)
    (h : Reachable (Call.run hashv o) (Call.Respects o lockup) start l) :
    heldUnder lockup start ≤ heldUnder lockup l := by
  have hrun := h.invariant (P := fun l => Fits o l ∧ heldUnder lockup start ≤ heldUnder lockup l)
    ⟨hsupply, le_rfl⟩ fun l c l' ⟨hfit, hle⟩ hrule hrun => by
      have heffect := processInstruction_effect hrule.inRange hrun
      obtain ⟨hlamports, hstep⟩ := heffect.heldUnder_le hfit hrule.inForce hrule.unsigned
      exact ⟨hfit.imp_right hlamports.trans_lt, hle.trans hstep⟩
  exact hrun.2

def exampleSysvars : Sysvars where
  clock := .early 5 5
  stakeHistory := ∅
  rent := Rent.default
  config := Config.default

/-- Locked until epoch 10, with custodian 9. -/
def exampleLockup : Lockup := ⟨0, 10, 9⟩

/-- Account 1 is initialized and locked, with staker 7 and withdrawer 8; account 2 is fresh. -/
def lockedStart : BankLedger :=
  (Ledger.set (∅ : BankLedger) 1
      ⟨1000, ⟨200, .stake (.initialized ⟨100, ⟨7, 8⟩, exampleLockup⟩)⟩, id, false, 0⟩).set 2
    ⟨0, ⟨200, .zeroed⟩, id, false, 0⟩

/-- The staker splits 400 lamports off account 1. -/
def splitCall : Call where
  sysvars := exampleSysvars
  keyedAccounts := [⟨1, false, true⟩, ⟨2, false, true⟩, ⟨7, true, false⟩]
  instruction := .split 400

theorem lockedFunds_kept_split : ∃ l, Reachable (Call.run (fun _ _ _ => 0) .checked)
      (Call.Respects .checked exampleLockup) lockedStart l ∧ (l.get 2).lamports = 400 ∧
    heldUnder exampleLockup lockedStart ≤ heldUnder exampleLockup l := by
  have hstatic : ∃ l, Reachable (Call.run (fun _ _ _ => 0) .checked)
      (fun _ c => exampleLockup.isInForce c.sysvars.clock none = true ∧
        exampleLockup.custodian ∉ c.signers) lockedStart l ∧ (l.get 2).lamports = 400 :=
    exists_reachable [splitCall] (by decide +kernel)
  obtain ⟨l, hreach, hsplit⟩ := hstatic
  have hrespects : Reachable (Call.run (fun _ _ _ => 0) .checked)
      (Call.Respects .checked exampleLockup) lockedStart l :=
    hreach.mono fun l c h => ⟨h.1, h.2, inRange_checked _ _ _ _⟩
  exact ⟨l, hrespects, hsplit, lockedFunds_kept _ .checked exampleLockup (.inl rfl) hrespects⟩

end Panoptes.StakeProgram
