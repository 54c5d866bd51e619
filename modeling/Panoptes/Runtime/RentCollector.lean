import Panoptes.Runtime.AccountData
import Panoptes.Sdk.EpochSchedule

/-!
# Rent

`runtime/src/rent_collector.rs`: rent is taken from an account for the epochs since it was last
looked at, and an account that cannot pay is emptied.

Principal result: `collectFromExistingAccount_lamports`, what is taken from an account is what it
loses.
-/

set_option autoImplicit false

namespace Panoptes.Runtime

open Lib Sdk

structure RentCollector where
  epoch : Nat
  epochSchedule : EpochSchedule
  slotsPerYear : F64
  rent : Rent

namespace RentCollector

variable (rc : RentCollector)

section

variable (address : Pubkey) (account : BankAccount)

/-- The slots from the epoch after `rentEpoch` to the one after the current epoch. -/
def slotsElapsed (rentEpoch : Nat) : Nat :=
  ((List.range (rc.epoch + 1 - rentEpoch)).map fun i =>
    rc.epochSchedule.getSlotsInEpoch (rentEpoch + i + 1)).sum % U64

/-- The rent that is due, and whether the account is exempt. -/
def due (rc : RentCollector) (account : BankAccount) : Nat × Bool :=
  let yearsElapsed :=
    if rc.slotsPerYear ≠ .finite 0 then
      (F64.ofNat (rc.slotsElapsed account.rentEpoch)).div rc.slotsPerYear
    else .finite 0
  rc.rent.due account.lamports account.data.len yearsElapsed

/-- Accounts that rent is not collected from. -/
def isSkipped : Bool :=
  account.executable || decide (rc.epoch < account.rentEpoch) || decide (account.owner = SYSVAR_ID)
    || decide (address = INCINERATOR_ID)

/-- `collect_from_existing_account`: the account, and the rent that was taken. -/
def collectFromExistingAccount (rentFixEnabled : Bool) : BankAccount × Nat :=
  if rc.isSkipped address account then (account, 0)
  else
    let (rentDue, exempt) := rc.due account
    if exempt = true ∨ rentDue ≠ 0 then
      if rentDue < account.lamports then
        ({ account with
            lamports := account.lamports - rentDue
            -- An exempt account is looked at again in this epoch.
            rentEpoch := rc.epoch + if rentFixEnabled && exempt then 0 else 1 }, rentDue)
      else (default, account.lamports)
    -- Maybe later.
    else (account, 0)

def collectFromCreatedAccount (enableNewBehavior : Bool) : BankAccount × Nat :=
  rc.collectFromExistingAccount address { account with rentEpoch := rc.epoch } enableNewBehavior

end

variable (rc : RentCollector) (address : Pubkey) (account : BankAccount) (fix : Bool)

/-- **What is taken from an account is what it loses.** -/
theorem collectFromExistingAccount_lamports :
    (rc.collectFromExistingAccount address account fix).1.lamports
      + (rc.collectFromExistingAccount address account fix).2 = account.lamports := by
  unfold collectFromExistingAccount
  split
  · simp
  · dsimp only
    split
    · split
      · simp only
        omega
      · simp [Account.default_lamports]
    · simp

/-- An account with lamports left is the account it was, up to its balance and the epoch of its
rent. -/
theorem collectFromExistingAccount_kept
    (h : (rc.collectFromExistingAccount address account fix).1.lamports ≠ 0) :
    (rc.collectFromExistingAccount address account fix).1.data = account.data ∧
      (rc.collectFromExistingAccount address account fix).1.owner = account.owner := by
  unfold collectFromExistingAccount at h ⊢
  split
  · exact ⟨rfl, rfl⟩
  · rename_i hskip
    rw [if_neg hskip] at h
    dsimp only at h ⊢
    split at h
    · split at h
      · rename_i hdue hlt
        rw [if_pos hdue, if_pos hlt]
        exact ⟨rfl, rfl⟩
      · exact absurd Account.default_lamports h
    · rename_i hdue
      rw [if_neg hdue]
      exact ⟨rfl, rfl⟩

/-- An account that has nothing left is emptied. -/
theorem collectFromExistingAccount_empty (hne : account.lamports ≠ 0)
    (h : (rc.collectFromExistingAccount address account fix).1.lamports = 0) :
    (rc.collectFromExistingAccount address account fix).1 = default := by
  unfold collectFromExistingAccount at h ⊢
  split at h
  · exact absurd h hne
  · rename_i hskip
    rw [if_neg hskip]
    dsimp only at h ⊢
    split at h
    · rename_i hdue
      rw [if_pos hdue]
      split at h
      · simp only at h
        omega
      · rename_i hlt
        rw [if_neg hlt]
    · exact absurd h hne

theorem due_of_isExempt (h : rc.rent.isExempt account.lamports account.data.len = true) :
    rc.due account = (0, true) := by
  simp [due, Rent.due, h]

theorem isExempt_of_due (h : (rc.due account).2 = true) :
    rc.rent.isExempt account.lamports account.data.len = true := by
  by_contra hnot
  simp [due, Rent.due, hnot] at h

theorem collectFromExistingAccount_of_isSkipped (h : rc.isSkipped address account = true) :
    rc.collectFromExistingAccount address account fix = (account, 0) := by
  simp [collectFromExistingAccount, h]

/-- **Rent is collected once in an epoch**: what is left pays nothing and stays as it is. -/
theorem collectFromExistingAccount_twice
    (hne : (rc.collectFromExistingAccount address account fix).1.lamports ≠ 0) :
    rc.collectFromExistingAccount address (rc.collectFromExistingAccount address account fix).1 fix
      = ((rc.collectFromExistingAccount address account fix).1, 0) := by
  by_cases hskip : rc.isSkipped address account = true
  · rw [rc.collectFromExistingAccount_of_isSkipped address account fix hskip]
    exact rc.collectFromExistingAccount_of_isSkipped address account fix hskip
  have heq : rc.collectFromExistingAccount address account fix
      = if (rc.due account).2 = true ∨ (rc.due account).1 ≠ 0 then
          if (rc.due account).1 < account.lamports then
            ({ account with
                lamports := account.lamports - (rc.due account).1
                rentEpoch := rc.epoch + if fix && (rc.due account).2 then 0 else 1 },
                  (rc.due account).1)
          else (default, account.lamports)
        else (account, 0) := by
    rw [collectFromExistingAccount, if_neg hskip]
  rw [heq] at hne ⊢
  by_cases hdue : (rc.due account).2 = true ∨ (rc.due account).1 ≠ 0
  · rw [if_pos hdue] at hne ⊢
    by_cases hlt : (rc.due account).1 < account.lamports
    · rw [if_pos hlt] at hne ⊢
      by_cases hfix : (fix && (rc.due account).2) = true
      · -- An exempt account is looked at again, and stays exempt.
        obtain ⟨hon, hexempt⟩ := Bool.and_eq_true_iff.mp hfix
        have hrent := rc.isExempt_of_due account hexempt
        have hzero : (rc.due account).1 = 0 := by rw [rc.due_of_isExempt account hrent]
        rw [hzero] at hlt
        rw [if_pos hfix, hzero]
        have hagain :
            rc.due { account with lamports := account.lamports - 0, rentEpoch := rc.epoch + 0 }
            = (0, true) := rc.due_of_isExempt _ hrent
        unfold collectFromExistingAccount
        split
        · rfl
        · rw [hagain]
          simp [hon, hlt]
      · rw [if_neg hfix]
        exact rc.collectFromExistingAccount_of_isSkipped _ _ _ (by simp [isSkipped])
    · rw [if_neg hlt] at hne
      exact absurd Account.default_lamports hne
  · rw [if_neg hdue, heq, if_neg hdue]

end RentCollector

end Panoptes.Runtime
