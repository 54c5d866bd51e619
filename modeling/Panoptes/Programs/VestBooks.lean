import Panoptes.Lib.Runs
import Panoptes.Programs.Vest

/-!
# The books of a vesting contract

* `VestCall` — a redemption at any date, a renege of any amount, or `vest_all`.
* `Balanced` — what is kept: the contract holds what is neither redeemed nor reneged.

Principal result: `vestingBooks_balance`.
-/

set_option autoImplicit false

namespace Panoptes.VestProgram

open Lib Sdk Ledger List

variable {δ : Type} [Inhabited δ] {env : Env δ} {o : Overflow} {contract payee : Pubkey}

/-! ## Runs -/

/-- A contract and its account, with what `calc_vested_lamports` gave at each redemption. -/
structure Books (δ : Type) where
  state : VestState
  ledger : Ledger δ
  vested : List Nat

inductive VestCall where
  | redeemTokens (currentDate : Int) (payee : Pubkey)
  | renege (lamports : Nat) (payee : Pubkey)
  | vestAll

/-- The payee's account is another one than the contract's. -/
def VestCall.PaysAnother (contract : Pubkey) : VestCall → Prop
  | redeemTokens _ payee => payee ≠ contract
  | renege _ payee => payee ≠ contract
  | vestAll => True

def VestCall.run (env : Env δ) (o : Overflow) (contract : Pubkey) (s : Books δ) : VestCall →
    Except Panic (Books δ)
  | redeemTokens currentDate payee => do
    let vested ← calcVestedLamports env o s.state currentDate
    let (state, ledger) ← VestProgram.redeemTokens env o s.ledger contract s.state currentDate payee
    .ok ⟨state, ledger, vested :: s.vested⟩
  | renege lamports payee => do
    let (state, ledger) ← VestProgram.renege o s.ledger contract s.state payee lamports
    .ok ⟨state, ledger, s.vested⟩
  | vestAll => .ok { s with state := { s.state with isFullyVested := true } }

structure Balanced (env : Env δ) (o : Overflow) (contract : Pubkey) (total : Nat)
    (s : Books δ) : Prop where
  total_eq : s.state.totalLamports = total
  sum : (s.ledger.get contract).lamports + s.state.redeemedLamports + s.state.renegedLamports =
    total
  redeemed : s.state.redeemedLamports ≤ s.vested.foldr max 0
  /-- What is reneged is never redeemed; the first subtraction of `calc_vested_lamports` does not
  underflow. -/
  reneged : s.state.renegedLamports ≤ s.state.totalLamports - s.state.redeemedLamports
  /-- The subtraction of `redeem_tokens` does not underflow. -/
  redeemable : ∀ date vested, calcVestedLamports env o s.state date = .ok vested →
    vested - s.state.redeemedLamports ≤ (s.ledger.get contract).lamports

/-! ## One call -/

omit [Inhabited δ] in
theorem calcVestedLamports_le {state : VestState} {date : Int} {vested : Nat}
    (hreneged : state.renegedLamports ≤ state.totalLamports)
    (h : calcVestedLamports env o state date = .ok vested) :
    vested ≤ state.totalLamports - state.renegedLamports := by
  unfold calcVestedLamports at h
  rw [subU64_ok o hreneged, ok_bind] at h
  split at h
  · cases h
    exact le_refl _
  · obtain ⟨_, -, h⟩ := bind_eq_ok.mp h
    obtain ⟨_, -, h⟩ := bind_eq_ok.mp h
    cases h
    exact min_le_right _ _

theorem pay_lamports {l l' : Ledger δ} {n : Nat} (hne : payee ≠ contract)
    (hle : n ≤ (l.get contract).lamports)
    (h : pay o l contract payee n = .ok l') :
    (l'.get contract).lamports = (l.get contract).lamports - n := by
  unfold pay at h
  rw [subU64_ok o hle, ok_bind] at h
  obtain ⟨paid, -, h⟩ := bind_eq_ok.mp h
  cases h
  rw [get_set_of_ne _ _ hne.symm, get_set_self]

/-- The books balance if the sum does and no more is redeemed than was vested. -/
theorem Balanced.of_sum {total : Nat} {s : Books δ} (htotal : s.state.totalLamports = total)
    (hsum : (s.ledger.get contract).lamports + s.state.redeemedLamports + s.state.renegedLamports =
      total)
    (hredeemed : s.state.redeemedLamports ≤ s.vested.foldr max 0) :
    Balanced env o contract total s := by
  refine ⟨htotal, hsum, hredeemed, by omega, fun date vested h => ?_⟩
  have := calcVestedLamports_le (by omega) h
  omega

theorem Balanced.run {total : Nat} (ht : total < U64) {s s' : Books δ} {call : VestCall}
    (h : Balanced env o contract total s) (hpays : call.PaysAnother contract)
    (hrun : call.run env o contract s = .ok s') : Balanced env o contract total s' := by
  have hsum := h.sum
  cases call with
  | redeemTokens date payee =>
    obtain ⟨vested, hvested, hrun⟩ := bind_eq_ok.mp hrun
    obtain ⟨⟨state, ledger⟩, hredeem, hrun⟩ := bind_eq_ok.mp hrun
    cases hrun
    unfold VestProgram.redeemTokens at hredeem
    have hle := h.redeemable date vested hvested
    rw [hvested, ok_bind] at hredeem
    obtain ⟨_, hpay, hredeem⟩ := bind_eq_ok.mp hredeem
    have hlamports := pay_lamports hpays hle hpay
    rw [addU64_ok o (by omega)] at hredeem
    cases hredeem
    have := h.redeemed
    refine .of_sum h.total_eq ?_ ?_
    · dsimp only
      omega
    · rw [foldr_cons]
      dsimp only
      omega
  | renege lamports payee =>
    obtain ⟨⟨state, ledger⟩, hrenege, hrun⟩ := bind_eq_ok.mp hrun
    cases hrun
    obtain ⟨_, hpay, hrenege⟩ := bind_eq_ok.mp hrenege
    have hlamports := pay_lamports hpays (min_le_left _ _) hpay
    rw [addU64_ok o (by omega)] at hrenege
    cases hrenege
    refine .of_sum h.total_eq ?_ h.redeemed
    dsimp only
    omega
  | vestAll =>
    cases hrun
    exact .of_sum h.total_eq hsum h.redeemed

/-- **The books balance** after any calls on a contract that holds its total. -/
theorem vestingBooks_balance (env : Env δ) (o : Overflow) (contract : Pubkey)
    (state : VestState) (l : Ledger δ)
    (ht : state.totalLamports < U64) (hl : (l.get contract).lamports = state.totalLamports)
    (hredeemed : state.redeemedLamports = 0) (hreneged : state.renegedLamports = 0) (s : Books δ)
    (h : Reachable (VestCall.run env o contract)
      (fun _ call => call.PaysAnother contract) ⟨state, l, []⟩ s) :
    Balanced env o contract state.totalLamports s := by
  refine h.invariant (.of_sum rfl (by dsimp only; omega) hredeemed.le) ?_
  intro s call s' hs hpays hrun
  exact hs.run ht hpays hrun

/-- A third is redeemed after a year, half of the contract is reneged, and then the rest of the
schedule is redeemed. -/
theorem vestingBooks_balance_example : ∃ s : Books (Option VestState), s.vested = [5, 4] ∧
    s.state.redeemedLamports = 5 ∧ Balanced exampleEnv .checked 1 10 s := by
  have h : Reachable (VestCall.run exampleEnv .checked 1) (fun _ call => call.PaysAnother 1)
      ⟨⟨2, 3, 0, 5, 10, 0, 0, false⟩, exampleLedger, []⟩ _ :=
    ((Reachable.start.call (c := .redeemTokens 360 3) (by decide : (3 : Pubkey) ≠ 1) rfl).call
      (c := .renege 5 2)
      (by decide : (2 : Pubkey) ≠ 1) rfl).call (c := .redeemTokens 1080 3)
        (by decide : (3 : Pubkey) ≠ 1) rfl
  exact ⟨_, rfl, rfl, vestingBooks_balance _ _ _ _ _ (by decide) (by decide +kernel) rfl rfl _ h⟩

end Panoptes.VestProgram
