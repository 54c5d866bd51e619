import Panoptes.Lib.SortedMap
import Panoptes.Sdk.Clock

/-!
# Accounts and ledgers

`sdk/src/account.rs`, `sdk/src/keyed_account.rs` and the errors of `sdk/program/src/instruction.rs`.
The model is generic in the account data: the programs of the repository see what the data decodes
to, the runtime sees bytes.

* `Account` — balance, data, owner, executable flag, rent epoch.
* `Ledger` — the accounts by address.  An address without an account holds the default account, as
  the loader has it; two references to one address are one account, as two `KeyedAccount`s of it
  are.
* `Ledger.total` — the sum of a quantity over the accounts, with `Ledger.total_set` for a write.
-/

set_option autoImplicit false

namespace Panoptes.Sdk

open Lib
open Std (ExtTreeMap)

inductive InstructionError where
  | genericError
  | invalidArgument
  | invalidInstructionData
  | invalidAccountData
  | accountDataTooSmall
  | insufficientFunds
  | incorrectProgramId
  | missingRequiredSignature
  | accountAlreadyInitialized
  | uninitializedAccount
  | unbalancedInstruction
  | modifiedProgramId
  | externalAccountLamportSpend
  | externalAccountDataModified
  | readonlyLamportChange
  | readonlyDataModified
  | duplicateAccountIndex
  | executableModified
  | rentEpochModified
  | notEnoughAccountKeys
  | accountDataSizeChanged
  | accountNotExecutable
  | accountBorrowFailed
  | accountBorrowOutstanding
  | duplicateAccountOutOfSync
  | custom (code : Nat)
  | invalidError
  | executableDataModified
  | executableLamportChange
  | executableAccountNotRentExempt
  | unsupportedProgramId
  | callDepth
  | missingAccount
  | reentrancyNotAllowed
  | maxSeedLengthExceeded
  | invalidSeeds
  | invalidRealloc
  | computationalBudgetExceeded
  | privilegeEscalation
  | programEnvironmentSetupFailure
  | programFailedToComplete
  | programFailedToCompile
  | immutable
  | incorrectAuthority
  deriving DecidableEq, Repr

/-! ## Addresses -/

def SYSTEM_PROGRAM_ID : Pubkey := 0

/-- `Stake11111111111111111111111111111111111111`. -/
def STAKE_PROGRAM_ID : Pubkey := 0x06a1d8179137542a983437bdfe2a7ab2557f535c8a78722b68a49dc000000000

/-- `Vote111111111111111111111111111111111111111`. -/
def VOTE_PROGRAM_ID : Pubkey := 0x0761481d357474bb7c4d7624ebd3bdb3d8355e73d11043fc0da3538000000000

/-- `StakeConfig11111111111111111111111111111111`. -/
def STAKE_CONFIG_ID : Pubkey := 0x06a1d817a502050b680791e6ce6db88e1e5b7150f61fc6790a4eb4d100000000

/-- `SysvarC1ock11111111111111111111111111111111`. -/
def CLOCK_ID : Pubkey := 0x06a7d51718c774c928566398691d5eb68b5eb8a39b4b6d5c73555b2100000000

/-- `SysvarStakeHistory1111111111111111111111111`. -/
def STAKE_HISTORY_ID : Pubkey := 0x06a7d517193584d0feed9bb3431d13206be544281b57b8566cc5375ff4000000

/-- `SysvarRent111111111111111111111111111111111`. -/
def RENT_ID : Pubkey := 0x06a7d517192c5c51218cc94c3d4af17f58daee089ba1fd44e3dbd98a00000000

/-- `Sysvar1nstructions1111111111111111111111111`. -/
def INSTRUCTIONS_ID : Pubkey := 0x06a7d517187bd16635dad40455fdc2c0c124c68f215675a5dbbacb5f08000000

/-- `Sysvar1111111111111111111111111111111111111`, which owns the sysvars. -/
def SYSVAR_ID : Pubkey := 0x06a7d5171875f729c73d93408f216120067ed88c76e08c287fc1946000000000

/-- `1nc1nerator11111111111111111111111111111111`. -/
def INCINERATOR_ID : Pubkey := 0x003390728d34116079bdc911bfff00dbd44d2ecdccf79ca6e10038e100000000

/-! ## Accounts -/

structure Account (δ : Type) where
  lamports : Nat
  data : δ
  owner : Pubkey
  executable : Bool
  rentEpoch : Nat
  deriving DecidableEq, Repr

/-- `Account::default()`, with the default of the data. -/
instance {δ : Type} [Inhabited δ] : Inhabited (Account δ) :=
    ⟨⟨0, default, SYSTEM_PROGRAM_ID, false, 0⟩⟩

def accountAt {δ : Type} [Inhabited δ] (accounts : List (Account δ)) (index : Nat) : Account δ :=
  (accounts[index]?).getD default

theorem Account.default_lamports {δ : Type} [Inhabited δ] :
    (default : Account δ).lamports = 0 := rfl

/-- An account of an instruction: its address and the privileges the instruction has over it. -/
structure KeyedAccount where
  key : Pubkey
  isSigner : Bool
  isWritable : Bool
  deriving DecidableEq, Repr

namespace KeyedAccount

def signerKey (k : KeyedAccount) : Option Pubkey := if k.isSigner then some k.key else none

def getSigners (keyedAccounts : List KeyedAccount) : Finset Pubkey :=
  (keyedAccounts.filterMap signerKey).toFinset

theorem mem_getSigners {keyedAccounts : List KeyedAccount} {key : Pubkey} :
    key ∈ getSigners keyedAccounts ↔ ∃ k ∈ keyedAccounts, k.isSigner = true ∧ k.key = key := by
  simp only [getSigners, List.mem_toFinset, List.mem_filterMap, signerKey,
    Option.ite_none_right_eq_some,
    Option.some.injEq]

end KeyedAccount

/-! ## Ledgers -/

abbrev Ledger (δ : Type) := ExtTreeMap Pubkey (Account δ)

namespace Ledger

variable {δ : Type} [Inhabited δ] {key : Pubkey} {g : Account δ → Nat} {l l' : Ledger δ}

variable {k₁ k₂ src dst : Pubkey} {writes : List (Pubkey × Account δ)} {n : Nat}

section

variable (l : Ledger δ)

def get (key : Pubkey) : Account δ := l[key]?.getD default

def set (key : Pubkey) (a : Account δ) : Ledger δ := l.insert key a

theorem get_set (key key' : Pubkey) (a : Account δ) :
    (l.set key a).get key' = if key' = key then a else l.get key' := by
  unfold get set
  rw [getElem?_insert_ite]
  split <;> rfl

@[simp] theorem get_set_self (key : Pubkey) (a : Account δ) : (l.set key a).get key = a := by
  rw [get_set, if_pos rfl]

theorem get_set_of_ne {key' : Pubkey} (a : Account δ) (h : key' ≠ key) :
    (l.set key a).get key' = l.get key' := by
  rw [get_set, if_neg h]

/-- Add up a quantity over the accounts. -/
def total (g : Account δ → Nat) : Nat := mapSum l fun _ a => g a

end

def lamports (l : Ledger δ) : Nat := l.total Account.lamports

section

variable (l : Ledger δ) (hg : g default = 0) (key : Pubkey)
include hg

theorem elim_eq_get : (l[key]?).elim 0 g = g (l.get key) := by
  unfold get
  cases l[key]? with
  | none => exact hg.symm
  | some a => rfl

/-- **Writing an account** trades its old share for its new one. -/
theorem total_set (a : Account δ) : (l.set key a).total g + g (l.get key) = l.total g + g a := by
  rw [← elim_eq_get l hg key]
  exact mapSum_insert l (fun _ a => g a) key a

theorem le_total : g (l.get key) ≤ l.total g := by
  have h := sum_le_mapSum (m := l) (fun _ a => g a) {key}
  rw [Finset.sum_singleton, elim_eq_get l hg key] at h
  exact h

end

theorem total_mono (hg : g default = 0) (h : ∀ key, g (l.get key) ≤ g (l'.get key)) : l.total g ≤
    l'.total g := by
  unfold total
  rw [mapSum_eq_sum _ (l'.keys.toFinset ∪ l.keys.toFinset) fun k hk =>
      Finset.mem_union_left _ (mem_keys_toFinset.mpr hk),
    mapSum_eq_sum _ (l'.keys.toFinset ∪ l.keys.toFinset) fun k hk =>
      Finset.mem_union_right _ (mem_keys_toFinset.mpr hk)]
  refine Finset.sum_le_sum fun key _ => ?_
  rw [elim_eq_get l' hg key, elim_eq_get l hg key]
  exact h key

theorem total_congr (hg : g default = 0)
    (h : ∀ key, g (l'.get key) = g (l.get key)) : l'.total g = l.total g :=
  le_antisymm (total_mono hg fun key => (h key).le) (total_mono hg fun key => (h key).ge)

theorem total_two (hg : g default = 0) (hne : k₁ ≠ k₂)
    (hframe : ∀ key, key ≠ k₁ → key ≠ k₂ → l'.get key = l.get key) :
    l'.total g + (g (l.get k₁) + g (l.get k₂)) = l.total g + (g (l'.get k₁) + g (l'.get k₂)) := by
  have hsame : l'.total g = ((l.set k₁ (l'.get k₁)).set k₂ (l'.get k₂)).total g := by
    refine total_congr hg fun key => ?_
    rw [get_set, get_set]
    by_cases h₂ : key = k₂
    · rw [if_pos h₂, h₂]
    · rw [if_neg h₂]
      by_cases h₁ : key = k₁
      · rw [if_pos h₁, h₁]
      · rw [if_neg h₁, hframe key h₁ h₂]
  have h₁ := l.total_set hg k₁ (l'.get k₁)
  have h₂ := (l.set k₁ (l'.get k₁)).total_set hg k₂ (l'.get k₂)
  rw [get_set_of_ne _ _ (Ne.symm hne)] at h₂
  omega

section

variable (l : Ledger δ)

theorem add_le_total (hg : g default = 0) (hne : k₁ ≠ k₂) :
    g (l.get k₁) + g (l.get k₂) ≤ l.total g := by
  have h := sum_le_mapSum (m := l) (fun _ a => g a) {k₁, k₂}
  rw [Finset.sum_pair hne, elim_eq_get l hg k₁, elim_eq_get l hg k₂] at h
  exact h

theorem lamports_set (key : Pubkey) (a : Account δ) :
    (l.set key a).lamports + (l.get key).lamports = l.lamports + a.lamports :=
  l.total_set Account.default_lamports key a

theorem get_lamports_le (key : Pubkey) : (l.get key).lamports ≤ l.lamports :=
  l.le_total Account.default_lamports key

def setAll (writes : List (Pubkey × Account δ)) : Ledger δ :=
  writes.foldl (fun l w => l.set w.1 w.2) l

omit [Inhabited δ] in
theorem setAll_append (ws ws' : List (Pubkey × Account δ)) :
    l.setAll (ws ++ ws') = (l.setAll ws).setAll ws' :=
  List.foldl_append

theorem get_setAll_of_notMem (writes : List (Pubkey × Account δ))
    (h : key ∉ writes.map Prod.fst) : (l.setAll writes).get key = l.get key := by
  induction writes generalizing l with
  | nil => rfl
  | cons w rest ih =>
    simp only [List.map_cons, List.mem_cons, not_or] at h
    exact (ih (l.set w.1 w.2) h.2).trans (get_set_of_ne l w.2 h.1)

theorem get_setAll_of_mem (hnodup : (writes.map Prod.fst).Nodup) {a : Account δ}
    (h : (key, a) ∈ writes) :
    (l.setAll writes).get key = a := by
  induction writes generalizing l with
  | nil => cases h
  | cons w rest ih =>
    simp only [List.map_cons, List.nodup_cons] at hnodup
    rcases List.mem_cons.mp h with rfl | h
    · exact (get_setAll_of_notMem _ rest hnodup.1).trans (get_set_self l key a)
    · exact ih (l.set w.1 w.2) hnodup.2 h

end

/-- `n` lamports go from one account to another, or to itself; data may change on both sides. -/
structure Transfer (l l' : Ledger δ) (src dst : Pubkey) (n : Nat) : Prop where
  enough : n ≤ (l.get src).lamports
  lamports : ∀ key, (l'.get key).lamports + (if key = src then n else 0)
    = (l.get key).lamports + (if key = dst then n else 0)
  owner : ∀ key, (l'.get key).owner = (l.get key).owner
  frame : ∀ key, key ≠ src → key ≠ dst → l'.get key = l.get key

theorem get_set_lamports (l : Ledger δ) (key key' : Pubkey) (n : Nat) :
    (l.set key { l.get key with lamports := n }).get key'
      = { l.get key' with lamports := if key' = key then n else (l.get key').lamports } := by
  rw [get_set]
  by_cases h : key' = key
  · rw [if_pos h, if_pos h, h]
  · rw [if_neg h, if_neg h]

theorem transfer_of_writes {l₁ : Ledger δ} (hle : n ≤ (l.get src).lamports)
    (h₁ : l₁ = l.set src { l.get src with lamports := (l.get src).lamports - n })
    (h' : l' = l₁.set dst { l₁.get dst with lamports := (l₁.get dst).lamports + n }) :
    l.Transfer l' src dst n ∧ ∀ key, (l'.get key).data = (l.get key).data := by
  have hget : ∀ key, l'.get key = { l.get key with
      lamports := (if key = src then (l.get key).lamports - n else (l.get key).lamports)
        + (if key = dst then n else 0) } := by
    intro key
    rw [h', get_set_lamports, h₁, get_set_lamports, get_set_lamports]
    by_cases hd : key = dst
    · rw [if_pos hd, if_pos hd, hd]
      by_cases hs : dst = src
      · rw [if_pos hs, if_pos hs, hs]
      · rw [if_neg hs, if_neg hs]
    · rw [if_neg hd, if_neg hd]
      by_cases hs : key = src
      · rw [if_pos hs, if_pos hs, hs, Nat.add_zero]
      · rw [if_neg hs, if_neg hs, Nat.add_zero]
  refine ⟨⟨hle, fun key => ?_, fun key => by rw [hget], fun key hs hd => ?_⟩,
    fun key => by rw [hget]⟩
  · rw [hget]
    by_cases hs : key = src
    · rw [if_pos hs, if_pos hs, hs]
      dsimp only
      omega
    · rw [if_neg hs, if_neg hs]
      rfl
  · rw [hget, if_neg hs, if_neg hd, Nat.add_zero]

theorem get_set_data (l : Ledger δ) (key key' : Pubkey) (data : δ) :
    (l.set key { l.get key with data }).get key'
      = { l.get key' with data := if key' = key then data else (l.get key').data } := by
  rw [get_set]
  by_cases h : key' = key
  · rw [if_pos h, if_pos h, h]
  · rw [if_neg h, if_neg h]

/-- What was written to the data before does not matter to a transfer. -/
theorem Transfer.of_set_data {data : δ}
    (h : (l.set src { l.get src with data }).Transfer l' src dst n) : l.Transfer l' src dst n := by
  constructor
  case enough => simpa [get_set_data] using h.enough
  case lamports => simpa [get_set_data] using h.lamports
  case owner => simpa [get_set_data] using h.owner
  case frame =>
    intro key hsrc hdst
    simpa [get_set_data, hsrc] using h.frame key hsrc hdst

/-- **A transfer keeps the supply.** -/
theorem Transfer.lamports_eq (h : Transfer l l' src dst n) : l'.lamports = l.lamports := by
  by_cases hne : src = dst
  · refine total_congr Account.default_lamports fun key => ?_
    have := h.lamports key
    rw [hne] at this
    omega
  · have htotal := total_two Account.default_lamports hne h.frame
    have hsrc := h.lamports src
    have hdst := h.lamports dst
    rw [if_pos rfl, if_neg hne] at hsrc
    rw [if_neg (Ne.symm hne), if_pos rfl] at hdst
    unfold Ledger.lamports
    omega

end Ledger

end Panoptes.Sdk
