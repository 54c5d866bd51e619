import Panoptes.Stake.Effects

/-!
# The balances of the stake accounts

What `withdraw` moves and what it leaves, for one call.  The amount of a withdrawal is any `u64`,
and the sum that guards it is a plain one.

* `mustKeep` — the lamports a stake account has to keep.

Principal result: `withdraw_exact_iff`.
-/

set_option autoImplicit false

namespace Panoptes.StakeProgram

open Lib Sdk Sdk.Ledger Panoptes.Runtime

variable {o : Overflow} {l l' : BankLedger} {self dest : Pubkey} {n : Nat} {clock : Clock}
  {history : StakeHistory}

/-- The reserve, and the stake that is in effect or, before its deactivation, may come into
effect. -/
def mustKeep (clock : Clock) (history : StakeHistory) : StakeState → Nat
  | .stake info stake =>
    (if clock.epoch ≥ stake.delegation.deactivationEpoch then
      stake.delegation.stakeAt clock.epoch (some history) true
      else stake.delegation.stake) + info.rentExemptReserve
  | .initialized info => info.rentExemptReserve
  | _ => 0

/-- Who withdraws from an account, and under which lockup. -/
def withdrawer (self : Pubkey) : StakeState → Option (Pubkey × Lockup)
  | .stake info _ => some (info.authorized.withdrawer, info.lockup)
  | .initialized info => some (info.authorized.withdrawer, info.lockup)
  | .uninitialized => some (self, .default)
  | .rewardsPool => none

/-- The withdrawer has signed and the lockup is not in force. -/
def Permits (clock : Clock) (self : Pubkey) (authority : KeyedAccount)
    (custodian : Option KeyedAccount) (s : StakeState) : Prop :=
  ∃ key lockup, withdrawer self s = some (key, lockup) ∧ authority.signerKey = some key ∧
    lockup.isInForce clock (custodian.bind KeyedAccount.signerKey) = false

/-- The ledger when a withdrawal stops. -/
def ledgerOnError (o : Overflow) (l : BankLedger) (self : Pubkey) (n : Nat) (clock : Clock)
    (history : StakeHistory)
    (authority : KeyedAccount) (custodian : Option KeyedAccount) : BankLedger :=
  match (do checkWithdraw o l self n clock history authority custodian; deinitializeIfEmptied l self n) with
  | .error _ => l
  | .ok l => (subLamports o l self n).toOption.getD l

section

variable {a : BankAccount} {key : Pubkey} {s : StakeState} {lockup : Lockup} {reserve : Nat}
  {isStaked : Bool} {authority : KeyedAccount} {custodian : Option KeyedAccount}

/-- The reserve of the guard is the sum, in a release build up to a multiple of `2^64`. -/
theorem withdrawTerms_eq_ok
    (h : withdrawTerms o a self clock history {key} = .ok (lockup, reserve, isStaked)) :
    ∃ s, a.data.stakeState = some s ∧ withdrawer self s = some (key, lockup) ∧
      (o = .checked → reserve = mustKeep clock history s) ∧
        reserve % U64 = mustKeep clock history s % U64 := by
  obtain ⟨s, hs, h⟩ := bind_eq_ok.mp h
  refine ⟨s, Account.state_eq_ok.mp hs, ?_⟩
  cases s with
  | uninitialized =>
    obtain ⟨hsigned, h⟩ := ite_error_eq_ok.mp h
    cases h
    exact ⟨by rw [withdrawer, Finset.mem_singleton.mp (not_not.mp hsigned)], fun _ => rfl, rfl⟩
  | initialized info =>
    obtain ⟨_, hsigned, h⟩ := bind_eq_ok.mp h
    obtain ⟨hsigned, -⟩ := ite_eq_ok.mp hsigned
    cases h
    exact ⟨by rw [withdrawer, Finset.mem_singleton.mp hsigned], fun _ => rfl, rfl⟩
  | stake info stake =>
    obtain ⟨_, hsigned, h⟩ := bind_eq_ok.mp h
    obtain ⟨hsigned, -⟩ := ite_eq_ok.mp hsigned
    obtain ⟨sum, hsum, h⟩ := bind_eq_ok.mp h
    replace hsum := liftPanic_eq_ok hsum
    cases h
    refine ⟨by rw [withdrawer, Finset.mem_singleton.mp hsigned],
      fun ho => addU64_eq_ok hsum (.inl ho), ?_⟩
    cases o with
    | checked => rw [addU64_eq_ok hsum (.inl rfl)]; rfl
    | wrapping =>
      rw [addU64_wrapping] at hsum
      cases hsum
      exact Nat.mod_mod _ _
  | rewardsPool => cases h

theorem withdrawTerms_wrapping (hs : a.data.stakeState = some s)
    (hkey : withdrawer self s = some (key, lockup)) :
    ∃ reserve isStaked, withdrawTerms .wrapping a self clock history {key} =
      .ok (lockup, reserve, isStaked) ∧ reserve % U64 = mustKeep clock history s % U64 := by
  unfold withdrawTerms
  rw [Account.state_eq_ok.mpr hs, ok_bind]
  cases s with
  | uninitialized =>
    cases hkey
    exact ⟨0, false, if_neg (not_not.mpr (Finset.mem_singleton_self _)), rfl⟩
  | initialized info =>
    cases hkey
    refine ⟨info.rentExemptReserve, false, ?_, rfl⟩
    dsimp only [Authorized.check]
    rw [if_pos (Finset.mem_singleton_self _)]
    rfl
  | stake info stake =>
    cases hkey
    dsimp only [Authorized.check]
    rw [if_pos (Finset.mem_singleton_self _), ok_bind, addU64_wrapping]
    exact ⟨_, _, rfl, Nat.mod_mod _ _⟩
  | rewardsPool => cases hkey

theorem exceedsBalance_wrapping (condition : Bool) (balance : Nat)
    (hsum : condition = true → (n + reserve) % U64 ≤ balance) :
    exceedsBalance .wrapping condition n reserve balance = .ok false := by
  unfold exceedsBalance
  split
  · rename_i h
    rw [addU64_wrapping, ok_bind, decide_eq_false (Nat.not_lt.mpr (hsum h))]
  · rfl

/-- Without overflow checks a withdrawal passes as soon as the wrapped sum does. -/
theorem checkWithdraw_wrapping (hs : (l.get self).data.stakeState = some s)
    (hpermits : Permits clock self authority custodian s)
    (hsum : (n + mustKeep clock history s) % U64 ≤ (l.get self).lamports) :
    checkWithdraw .wrapping l self n clock history authority custodian = .ok () := by
  obtain ⟨key, lockup, hkey, hsigned, hforce⟩ := hpermits
  obtain ⟨reserve, isStaked, hterms, hreserve⟩ := withdrawTerms_wrapping hs hkey
  rw [Nat.add_mod, ← hreserve, ← Nat.add_mod] at hsum
  unfold checkWithdraw
  rw [hsigned]
  dsimp only
  rw [hterms, ok_bind]
  dsimp only
  rw [hforce, if_neg Bool.false_ne_true]
  unfold checkWithdrawal
  rw [exceedsBalance_wrapping isStaked _ fun _ => hsum, exceedsBalance_wrapping _ _ fun _ => hsum]
  rfl

/-- What has passed the guard, unless the whole balance leaves. -/
theorem guard_of_checkWithdraw {u : Unit}
    (h : checkWithdraw o l self n clock history authority custodian = .ok u) :
    ∃ s, (l.get self).data.stakeState = some s ∧ Permits clock self authority custodian s ∧
      (n ≠ (l.get self).lamports → n + mustKeep clock history s ≤ (l.get self).lamports ∨
        o = .wrapping ∧ (n + mustKeep clock history s) % U64 ≤ (l.get self).lamports) := by
  obtain ⟨key, lockup, reserve, isStaked, hsigned, hterms, hforce, hcheck⟩ := checkWithdraw_eq_ok h
  obtain ⟨s, hs, hkey, hchecked, hreserve⟩ := withdrawTerms_eq_ok hterms
  refine ⟨s, hs, ⟨key, lockup, hkey, hsigned, hforce⟩, fun hn => ?_⟩
  have hguard := checkWithdrawal_eq_ok hcheck hn
  cases o with
  | checked => exact .inl (hchecked rfl ▸ exceedsBalance_eq_ok hguard (.inl rfl))
  | wrapping =>
    obtain ⟨needed, hneeded, hguard⟩ := bind_eq_ok.mp hguard
    rw [addU64_wrapping] at hneeded
    cases hneeded
    rw [Nat.add_mod, ← hreserve, ← Nat.add_mod]
    exact .inr ⟨rfl, Nat.not_lt.mp (of_decide_eq_false (Except.ok.inj hguard))⟩

theorem subLamports_addLamports_ok (o : Overflow) (self dest : Pubkey) (n : Nat)
    (hfit : l.lamports < U64) (hle : o = .wrapping ∨ n ≤ (l.get self).lamports) :
    ∃ l₁ l₂, subLamports o l self n = .ok l₁ ∧ addLamports o l₁ dest n = .ok l₂ := by
  rcases hle with rfl | hle
  · obtain ⟨left, hleft, -⟩ := (subU64_returns .wrapping (l.get self).lamports n).exists_ok
      fun _ h => nomatch h.2.1
    have hsub : subLamports .wrapping l self n =
        .ok (l.set self { l.get self with lamports := left }) := by
      rw [subLamports, hleft]
      rfl
    exact ⟨_, _, hsub, by rw [addLamports, addU64_wrapping]; rfl⟩
  · set l₁ := l.set self { l.get self with lamports := (l.get self).lamports - n } with h₁
    have hsub : subLamports o l self n = .ok l₁ := by
      rw [subLamports, subU64_ok o hle]
      rfl
    have hsupply := l.lamports_set self { l.get self with lamports := (l.get self).lamports - n }
    rw [← h₁] at hsupply
    have hdest : (l₁.get dest).lamports ≤ l₁.lamports := l₁.get_lamports_le dest
    have hadd : addU64 o (l₁.get dest).lamports n = .ok ((l₁.get dest).lamports + n) :=
      addU64_ok o (by dsimp only at hsupply; omega)
    exact ⟨l₁, _, hsub, by rw [addLamports, hadd]; rfl⟩

/-- When a withdrawal is exact: without overflow checks, one that is permitted and not of the whole
balance passes on the wrapped sum, which must then not have wrapped or be harmless. -/
def Withdrawable (o : Overflow) (l : BankLedger) (self dest : Pubkey) (n : Nat) (clock : Clock)
    (history : StakeHistory) (authority : KeyedAccount) (custodian : Option KeyedAccount) : Prop :=
  o = .wrapping → n ≠ (l.get self).lamports → ∀ s ∈ (l.get self).data.stakeState,
    Permits clock self authority custodian s → (n + mustKeep clock history s) % U64 ≤
      (l.get self).lamports →
    n + mustKeep clock history s < U64 ∨
      dest = self ∧ n ≤ (l.get self).lamports ∧ mustKeep clock history s ≤ (l.get self).lamports

/-- What has passed the guard is paid in full, to another account or back. -/
theorem Withdrawable.enough {u : Unit}
    (hexact : Withdrawable o l self dest n clock history authority custodian)
    (hcheck : checkWithdraw o l self n clock history authority custodian = .ok u) :
    n ≤ (l.get self).lamports ∧ ∃ s, (l.get self).data.stakeState = some s ∧
      (n ≠ (l.get self).lamports → n + mustKeep clock history s ≤ (l.get self).lamports ∨
      dest = self ∧ mustKeep clock history s ≤ (l.get self).lamports) := by
  obtain ⟨s, hs, hpermits, hguard⟩ := guard_of_checkWithdraw hcheck
  by_cases hn : n = (l.get self).lamports
  · exact ⟨hn.le, s, hs, fun hne => absurd hn hne⟩
  · rcases hguard hn with hle | ⟨ho, hsum⟩
    · exact ⟨by omega, s, hs, fun _ => .inl hle⟩
    · rcases hexact ho hn s hs hpermits hsum with hlt | ⟨hdest, hle, hkeep⟩
      · rw [Nat.mod_eq_of_lt hlt] at hsum
        exact ⟨by omega, s, hs, fun _ => .inl hsum⟩
      · exact ⟨hle, s, hs, fun _ => .inr ⟨hdest, hkeep⟩⟩

/-- After the last check every write succeeds. -/
theorem Withdrawable.ledgerOnError_eq
    (hexact : Withdrawable o l self dest n clock history authority custodian)
    (hfit : l.lamports < U64) {fault : Fault InstructionError}
    (h : withdraw o l self n dest clock history authority custodian = .error fault) :
    ledgerOnError o l self n clock history authority custodian = l := by
  unfold ledgerOnError
  unfold withdraw at h
  cases hcheck : checkWithdraw o l self n clock history authority custodian with
  | error => rfl
  | ok u =>
    rw [hcheck, ok_bind] at h
    rw [ok_bind]
    cases hempty : deinitializeIfEmptied l self n with
    | error => rfl
    | ok l₁ =>
      obtain ⟨hlam, -⟩ := deinitializeIfEmptied_eq_ok hempty
      obtain ⟨l₂, l₃, hsub, hadd⟩ := subLamports_addLamports_ok o self dest n
        ((total_congr Account.default_lamports hlam).trans_lt hfit)
          (.inr ((hlam self).symm ▸ (hexact.enough hcheck).1))
      rw [hempty, ok_bind, hsub, ok_bind, hadd] at h
      cases h

/-- **A withdrawal moves exactly its lamports, leaves what the account must keep unless it takes
everything, and writes nothing when it fails**, in both builds, exactly if it is `Withdrawable`. -/
theorem withdraw_exact_iff (o : Overflow) (n : Nat) (clock : Clock) (history : StakeHistory)
    (self dest : Pubkey)
    (authority : KeyedAccount) (custodian : Option KeyedAccount) (hfit : l.lamports < U64) :
    ((∀ l', withdraw o l self n dest clock history authority custodian = .ok l' →
        l.Transfer l' self dest n ∧ ∃ s, (l.get self).data.stakeState = some s ∧
          (n ≠ (l.get self).lamports → mustKeep clock history s ≤ (l'.get self).lamports)) ∧
      ∀ fault, withdraw o l self n dest clock history authority custodian = .error fault →
        ledgerOnError o l self n clock history authority custodian = l) ↔
    Withdrawable o l self dest n clock history authority custodian := by
  constructor
  · rintro ⟨hok, -⟩ rfl hn s hs hpermits hsum
    obtain ⟨l₁, l₂, hsub, hadd⟩ := subLamports_addLamports_ok .wrapping self dest n hfit (.inl rfl)
    have hrun : withdraw .wrapping l self n dest clock history authority custodian = .ok l₂ := by
      unfold withdraw deinitializeIfEmptied
      rw [checkWithdraw_wrapping hs hpermits hsum, ok_bind, if_neg hn, ok_bind, hsub, ok_bind, hadd]
    obtain ⟨htransfer, s', hs', hkeeps⟩ := hok l₂ hrun
    obtain rfl : s' = s := Option.some.inj (hs'.symm.trans hs)
    have hleft := htransfer.lamports self
    have hself := (l.get_lamports_le self).trans_lt hfit
    have henough := htransfer.enough
    have hkept := hkeeps hn
    rw [if_pos rfl] at hleft
    by_cases hdest : dest = self
    · rw [if_pos hdest.symm] at hleft
      exact .inr ⟨hdest, henough, by omega⟩
    · rw [if_neg (Ne.symm hdest)] at hleft
      exact .inl (by omega)
  · intro hexact
    refine ⟨fun l' h => ?_, fun fault h => hexact.ledgerOnError_eq hfit h⟩
    obtain ⟨_, hcheck, h⟩ := bind_eq_ok.mp h
    obtain ⟨henough, s, hs, hkeeps⟩ := hexact.enough hcheck
    obtain ⟨htransfer, -⟩ := withdraw_writes (.inr hfit) henough h
    refine ⟨htransfer, s, hs, fun hn => ?_⟩
    have hleft := htransfer.lamports self
    rw [if_pos rfl] at hleft
    rcases hkeeps hn with hle | ⟨hdest, hkeep⟩
    · split at hleft <;> omega
    · rw [if_pos hdest.symm] at hleft
      omega

end

/-- Account 1 is initialized, with withdrawer 8 and a reserve of 100 lamports; account 2 holds 50
lamports. -/
def twoAccounts : BankLedger :=
  (Ledger.set (∅ : BankLedger) 1 ⟨1000, ⟨200, .stake (.initialized ⟨100, ⟨7, 8⟩, .default⟩)⟩, id,
    false, 0⟩).set 2
    ⟨50, ⟨200, .zeroed⟩, id, false, 0⟩

def withdrawFrom (o : Overflow) (n : Nat) : Res InstructionError BankLedger :=
  withdraw o twoAccounts 1 n 2 (.early 5 5) ∅ ⟨8, true, false⟩ none

theorem withdraw_exact_iff_part :
    ∃ l', withdrawFrom .wrapping 300 = .ok l' ∧ twoAccounts.Transfer l' 1 2 300 := by
  obtain ⟨l', h⟩ : ∃ l', withdrawFrom .wrapping 300 = .ok l' :=
    exists_eq_ok_of_isOk (by decide +kernel)
  refine ⟨l', h,
    (((withdraw_exact_iff .wrapping 300 (.early 5 5) ∅ 1 2 ⟨8, true, false⟩ none
      (by decide +kernel)).mpr
    fun _ _ s hs _ _ => .inl ?_).1 l' h).1⟩
  obtain rfl : s = .initialized ⟨100, ⟨7, 8⟩, .default⟩ := (Option.some.inj hs).symm
  decide

/-- The sum wraps: 50 lamports less than `2^64` are withdrawn from 1000, and the recipient is
drained. -/
theorem withdraw_wraps : (withdrawFrom .wrapping (U64 - 50)).toOption.map
    (fun l => ((l.get 1).lamports, (l.get 2).lamports)) = some (1050, 0) := by
  decide +kernel

end Panoptes.StakeProgram
