import Panoptes.Runtime.Stakes

/-!
# Accounts, counters and rewards of a bank

`runtime/src/bank.rs`: the accounts of a bank as its own operations read and write them, next to the
cache of stakes, the capitalization and the counters of collected fees and rent.

* `storeAccount` — the accounts and the cache are written together.
* `storeAccountAndUpdateCapitalization`, `updateSysvarAccount` — sysvars.
* `deposit` is with the operations that use it.
-/

set_option autoImplicit false

namespace Panoptes.Runtime

open Lib Sdk StakeProgram Stakes

inductive RewardType where
  | fee
  | rent
  | staking
  | voting
  deriving DecidableEq, Repr

structure RewardInfo where
  rewardType : RewardType
  lamports : Int
  postBalance : Nat
  deriving DecidableEq, Repr

def asI64 (n : Nat) : Int := if n < 2 ^ 63 then n else (n : Int) - 2 ^ 64

structure BankState where
  accounts : BankLedger
  /-- The accounts that were stored in the slot of the bank. -/
  modified : List Pubkey
  stakes : Stakes
  capitalization : Nat
  collectedRent : Nat
  collectorFees : Nat
  rewards : List (Pubkey × RewardInfo)
  freezeStarted : Bool
  /-- The hash of the bank was computed. -/
  frozen : Bool

/-- The features that decide how accounts are stored. -/
structure StoreFeatures where
  stakeProgramV2Enabled : Bool
  simpleCapitalizationEnabled : Bool

namespace BankState

section

variable (b : BankState) (pubkey : Pubkey)

/-- `get_account`: an account without lamports is not there. -/
def getAccount : Option BankAccount :=
  if (b.accounts.get pubkey).lamports = 0 then none else some (b.accounts.get pubkey)

/-- `get_account(..).unwrap_or_default()`. -/
def getAccountOrDefault : BankAccount := (b.getAccount pubkey).getD default

def getAccountModifiedSinceParent : Option BankAccount :=
  if pubkey ∈ b.modified then b.getAccount pubkey else none

end

variable (o : Overflow) (f : StoreFeatures) (b : BankState)

def storeAccount (pubkey : Pubkey) (account : BankAccount) : Except Panic BankState := do
  assert (b.freezeStarted = false)
  let b := { b with accounts := b.accounts.set pubkey account, modified := pubkey :: b.modified }
  if isStake account then do
    let (stakes, _) ← b.stakes.store o pubkey account f.stakeProgramV2Enabled
    .ok { b with stakes }
  else .ok b

def storeAccountAndUpdateCapitalization (pubkey : Pubkey)
    (newAccount : BankAccount) : Except Panic BankState :=
  let capitalization :=
    match b.getAccount pubkey with
    | some oldAccount =>
      if oldAccount.lamports < newAccount.lamports then
        wrapAdd b.capitalization (newAccount.lamports - oldAccount.lamports)
      else wrapSub b.capitalization (oldAccount.lamports - newAccount.lamports)
    | none => wrapAdd b.capitalization newAccount.lamports
  storeAccount o f { b with capitalization } pubkey newAccount

/-- `update_sysvar_account`, with the sysvar as the parent has it.  The new one inherits its
balance. -/
def updateSysvarAccount (pubkey : Pubkey)
    (oldAccount : Option BankAccount) (data : AccountData) : Except Panic BankState :=
  let newAccount := ⟨(oldAccount.map Account.lamports).getD 1, data, SYSVAR_ID, false, 0⟩
  if f.simpleCapitalizationEnabled = false then storeAccount o f b pubkey newAccount
  else storeAccountAndUpdateCapitalization o f b pubkey newAccount

end BankState

/-! ## The cache and the accounts -/

/-- The cache has the vote accounts and the delegations of the bank. -/
structure BankState.Coherent (b : BankState) : Prop where
  votes : ∀ key, (b.accounts.get key).lamports ≠ 0 → (b.accounts.get key).owner = VOTE_PROGRAM_ID →
    ∃ v, b.stakes.voteAccounts[key]? = some v ∧ v.2.data = (b.accounts.get key).data
  delegations : ∀ key, (b.accounts.get key).lamports ≠ 0 →
    (b.accounts.get key).owner = STAKE_PROGRAM_ID →
      StakeState.SIZE ≤ (b.accounts.get key).data.len →
    b.stakes.stakeDelegations[key]? = delegationFrom (b.accounts.get key)

/-- The cache after an account is stored. -/
def Stakes.stored (o : Overflow) (f : StoreFeatures) (s : Stakes) (entry : Pubkey × BankAccount) :
    Except Panic Stakes :=
  if isStake entry.2 then do
    let (s, _) ← s.store o entry.1 entry.2 f.stakeProgramV2Enabled
    .ok s
  else .ok s

/-- What the rest of a bank reads of the vote accounts in its cache. -/
def Stakes.votesView (s : Stakes) : Std.ExtTreeMap Pubkey (Nat × AccountData) :=
  s.voteAccounts.map fun _ v => (v.1, v.2.data)

/-- An account that the cache knows is stored as it is, up to its balance. -/
def BankState.Keeps (b : BankState) (pubkey : Pubkey) (account : BankAccount) : Prop :=
  isStake account = true → account.lamports ≠ 0 ∧ (b.accounts.get pubkey).lamports ≠ 0 ∧
    account.data = (b.accounts.get pubkey).data ∧ account.owner = (b.accounts.get pubkey).owner

namespace Stakes

variable {pubkey : Pubkey} {account : BankAccount}

theorem votesView_getElem? (s : Stakes) (key : Pubkey) :
    s.votesView[key]? = (s.voteAccounts[key]?).map fun v => (v.1, v.2.data) :=
  Std.ExtTreeMap.getElem?_map

/-- A vote account of the cache is stored with the data it has. -/
theorem storeVote_kept (o : Overflow) (s : Stakes) (fix : Bool) {v : Nat × BankAccount}
    (hv : s.voteAccounts[pubkey]? = some v) (hdata : v.2.data = account.data)
    (hlamports : account.lamports ≠ 0) : s.storeVote o pubkey account fix = .ok { s with
      voteAccounts := (s.voteAccounts.erase pubkey).insert pubkey (v.1, account) } ∧
    (mk ((s.voteAccounts.erase pubkey).insert pubkey (v.1, account)) s.stakeDelegations s.epoch
      s.stakeHistory).votesView = s.votesView := by
  refine ⟨?_, ?_⟩
  · simp only [storeVote, if_pos hlamports, stakeOfVote, hv]
    rfl
  · refine Std.ExtTreeMap.ext_getElem? fun key => ?_
    rw [votesView_getElem?, votesView_getElem?, getElem?_insert_ite, getElem?_erase_ite]
    by_cases hkey : key = pubkey
    · simp [hkey, hv, hdata]
    · simp [hkey]

/-- A stake account is stored with the delegation that the cache has. -/
theorem storeStake_kept (o : Overflow) (s : Stakes) (fix : Bool)
    (hd : s.stakeDelegations[pubkey]? = delegationFrom account) (hlamports : account.lamports ≠ 0) :
    s.storeStake o pubkey account fix =
      .ok { s with stakeDelegations := s.delegationsAfter pubkey account } := by
  have hsame : s.newStake account fix = s.oldStake pubkey fix := by
    simp [newStake, oldStake, hd, hlamports]
  simp only [storeStake, adjustStake, hsame, ne_eq]
  rfl

theorem modifyStake_returns (voteAccounts : VoteAccounts) (voter : Pubkey)
    {g : Nat → Except Panic Nat}
    (hg : ∀ n, ∃ m, g n = .ok m) : ∃ v, modifyStake voteAccounts voter g = .ok v := by
  unfold modifyStake
  split
  · rename_i staked _ _
    obtain ⟨m, hm⟩ := hg staked
    rw [hm]
    exact ⟨_, rfl⟩
  · exact ⟨_, rfl⟩

theorem adjustStake_wrapping (voteAccounts : VoteAccounts)
    (oldStake stake : Option (Pubkey × Nat)) :
    ∃ v, adjustStake .wrapping voteAccounts oldStake stake = .ok v := by
  have hremove : ∃ v, removeStake .wrapping voteAccounts oldStake = .ok v := by
    cases oldStake with
    | none => exact ⟨_, rfl⟩
    | some old => exact modifyStake_returns _ _ fun n => by unfold subU64; split <;> exact ⟨_, rfl⟩
  have hadd (v : VoteAccounts) : ∃ v', addStake .wrapping v stake = .ok v' := by
    cases stake with
    | none => exact ⟨_, rfl⟩
    | some new => exact modifyStake_returns _ _ fun n => by unfold addU64; split <;> exact ⟨_, rfl⟩
  unfold adjustStake
  split
  · obtain ⟨v, hv⟩ := hremove
    rw [hv]
    exact hadd v
  · exact ⟨_, rfl⟩

/-- No store aborts if arithmetic wraps. -/
theorem stored_wrapping (s : Stakes) (f : StoreFeatures) (entry : Pubkey × BankAccount) :
    ∃ s', s.stored .wrapping f entry = .ok s' := by
  unfold stored store
  split
  · split
    · unfold storeVote
      split
      · have hstake : ∃ n, s.stakeOfVote .wrapping entry.1 f.stakeProgramV2Enabled = .ok n := by
          unfold stakeOfVote calculateStake sumU64
          split
          · exact ⟨_, rfl⟩
          · split <;> exact ⟨_, rfl⟩
        obtain ⟨n, hn⟩ := hstake
        rw [hn]
        exact ⟨_, rfl⟩
      · exact ⟨_, rfl⟩
    · split
      · obtain ⟨v, hv⟩ :=
          adjustStake_wrapping s.voteAccounts (s.oldStake entry.1 f.stakeProgramV2Enabled)
          (s.newStake entry.2 f.stakeProgramV2Enabled)
        rw [storeStake, hv]
        exact ⟨_, rfl⟩
      · exact ⟨_, rfl⟩
  · exact ⟨_, rfl⟩

theorem delegationsAfter_getElem? (s : Stakes)
    (hd : s.stakeDelegations[pubkey]? = delegationFrom account) (hlamports : account.lamports ≠ 0)
    (key : Pubkey) : (s.delegationsAfter pubkey account)[key]? = s.stakeDelegations[key]? := by
  unfold delegationsAfter
  rw [if_neg hlamports]
  split
  · rename_i d hsome
    rw [getElem?_insert_ite]
    split
    · rename_i hkey
      rw [hkey, hd, hsome]
    · rfl
  · rfl

end Stakes

namespace BankState

variable {b : BankState} {pubkey : Pubkey} {account : BankAccount}

theorem getAccount_eq_get (h : (b.accounts.get pubkey).lamports ≠ 0) :
    b.getAccountOrDefault pubkey = b.accounts.get pubkey := by
  simp [getAccountOrDefault, getAccount, h]

theorem getAccountOrDefault_lamports (b : BankState) (pubkey : Pubkey) :
    (b.getAccountOrDefault pubkey).lamports = (b.accounts.get pubkey).lamports := by
  unfold getAccountOrDefault getAccount
  split
  · rename_i h
    simp [h, Account.default_lamports]
  · rfl

theorem isStake_of_owner (hvote : account.owner ≠ VOTE_PROGRAM_ID)
    (hstake : account.owner ≠ STAKE_PROGRAM_ID) : isStake account = false := by
  simp [isStake, hvote, hstake]

/-- An account with lamports added to it. -/
def credited (b : BankState) (pubkey : Pubkey) (n : Nat) : BankAccount :=
  { b.getAccountOrDefault pubkey with lamports := (b.accounts.get pubkey).lamports + n }

@[simp] theorem credited_lamports (b : BankState) (pubkey : Pubkey) (n : Nat) :
    (b.credited pubkey n).lamports = (b.accounts.get pubkey).lamports + n := rfl

theorem keeps_add (b : BankState) (pubkey : Pubkey) (n : Nat) :
    b.Keeps pubkey (b.credited pubkey n) := by
  unfold credited
  intro hstake
  by_cases h : (b.accounts.get pubkey).lamports = 0
  · -- A new account belongs to the system program.
    have hdefault : b.getAccountOrDefault pubkey =
        default := by simp [getAccountOrDefault, getAccount, h]
    rw [hdefault] at hstake
    cases hstake
  · rw [getAccount_eq_get h] at hstake ⊢
    exact ⟨show _ + n ≠ 0 by omega, h, rfl, rfl⟩

/-- What a store does. -/
structure Stored (o : Overflow) (f : StoreFeatures) (b : BankState) (pubkey : Pubkey)
    (account : BankAccount) (b' : BankState) : Prop where
  accounts : b'.accounts = b.accounts.set pubkey account
  stakes : b.stakes.stored o f (pubkey, account) = .ok b'.stakes
  coherent : b.Coherent → b'.stakes.votesView = b.stakes.votesView ∧ b'.Coherent
  capitalization : b'.capitalization = b.capitalization
  collectedRent : b'.collectedRent = b.collectedRent
  collectorFees : b'.collectorFees = b.collectorFees
  freezeStarted : b'.freezeStarted = b.freezeStarted
  frozen : b'.frozen = b.frozen

/-- The cache stays coherent if it has what it must have of the account that is stored. -/
theorem Coherent.set (h : b.Coherent) {s : Stakes} (hvotes : s.votesView = b.stakes.votesView)
    (hdelegations : ∀ key : Pubkey, s.stakeDelegations[key]? = b.stakes.stakeDelegations[key]?)
    (hkeeps : b.Keeps pubkey account) (modified : List Pubkey) :
    Coherent { b with accounts := b.accounts.set pubkey account, stakes := s, modified } := by
  have hview : ∀ (key : Pubkey) (v : Nat × BankAccount), b.stakes.voteAccounts[key]? = some v →
      ∃ v' : Nat × BankAccount, s.voteAccounts[key]? = some v' ∧ v'.2.data = v.2.data := by
    intro key v hv
    have hkey : s.votesView[key]? = b.stakes.votesView[key]? := by rw [hvotes]
    rw [votesView_getElem?, votesView_getElem?, hv] at hkey
    obtain ⟨v', hv', heq⟩ := Option.map_eq_some_iff.mp hkey
    exact ⟨v', hv', congrArg Prod.snd heq⟩
  refine ⟨fun key hne howner => ?_, fun key hne howner hsize => ?_⟩
  · rw [Ledger.get_set] at hne howner ⊢
    split at hne
    · rename_i hkey
      rw [if_pos hkey] at howner ⊢
      obtain ⟨-, hlamports, hdata, howner'⟩ := hkeeps (by simp [isStake, howner])
      obtain ⟨v, hv, hvdata⟩ := h.votes pubkey hlamports (howner' ▸ howner)
      obtain ⟨v', hv', hv'data⟩ := hview _ _ hv
      exact ⟨v', hkey ▸ hv', hv'data.trans (hvdata.trans hdata.symm)⟩
    · rename_i hkey
      rw [if_neg hkey] at howner ⊢
      obtain ⟨v, hv, hvdata⟩ := h.votes key hne howner
      obtain ⟨v', hv', hv'data⟩ := hview _ _ hv
      exact ⟨v', hv', hv'data.trans hvdata⟩
  · rw [Ledger.get_set] at hne howner hsize ⊢
    rw [hdelegations]
    split at hne
    · rename_i hkey
      rw [if_pos hkey] at howner hsize ⊢
      obtain ⟨-, hlamports, hdata, howner'⟩ := hkeeps (by simp [isStake, howner, hsize])
      rw [hkey, h.delegations pubkey hlamports (howner' ▸ howner) (hdata ▸ hsize)]
      simp only [delegationFrom, hdata]
    · rename_i hkey
      rw [if_neg hkey] at howner hsize ⊢
      exact h.delegations key hne howner hsize

/-- A coherent cache takes an account that it has, and stays. -/
theorem stored_kept (o : Overflow) (f : StoreFeatures) (h : b.Coherent)
    (hkeeps : b.Keeps pubkey account) :
    ∃ s, b.stakes.stored o f (pubkey, account) = .ok s ∧ s.votesView = b.stakes.votesView ∧
      ∀ key : Pubkey, s.stakeDelegations[key]? = b.stakes.stakeDelegations[key]? := by
  unfold Stakes.stored
  cases hstake : isStake account with
  | false => exact ⟨_, rfl, rfl, fun _ => rfl⟩
  | true =>
    obtain ⟨hne, hlamports, hdata, howner⟩ := hkeeps hstake
    simp only [store]
    by_cases hvote : account.owner = VOTE_PROGRAM_ID
    · obtain ⟨v, hv, hvdata⟩ := h.votes pubkey hlamports (howner ▸ hvote)
      obtain ⟨hstore, hview⟩ :=
        b.stakes.storeVote_kept o f.stakeProgramV2Enabled hv (hvdata.trans hdata.symm)
        hne
      rw [if_pos hvote, hstore]
      exact ⟨_, rfl, hview, fun _ => rfl⟩
    · have hsize : account.owner = STAKE_PROGRAM_ID ∧ StakeState.SIZE ≤ account.data.len := by
        simpa [isStake, hvote] using hstake
      have hd : b.stakes.stakeDelegations[pubkey]? = delegationFrom account := by
        rw [h.delegations pubkey hlamports (howner ▸ hsize.1) (hdata ▸ hsize.2)]
        simp only [delegationFrom, hdata]
      rw [if_neg hvote, if_pos hsize.1, b.stakes.storeStake_kept o f.stakeProgramV2Enabled hd hne]
      exact ⟨_, rfl, rfl, b.stakes.delegationsAfter_getElem? hd hne⟩

/-- **A store returns** if arithmetic wraps, and otherwise if the cache is coherent and has the
account. -/
theorem storeAccount_spec {o : Overflow} (f : StoreFeatures) (hopen : b.freezeStarted = false)
    (hcache : o = .wrapping ∨ b.Coherent) (hkeeps : b.Keeps pubkey account) :
    ∃ b', storeAccount o f b pubkey account = .ok b' ∧ Stored o f b pubkey account b' := by
  obtain ⟨s, hs⟩ : ∃ s, b.stakes.stored o f (pubkey, account) = .ok s := by
    rcases hcache with rfl | h
    · exact b.stakes.stored_wrapping f _
    · obtain ⟨s, hs, -⟩ := stored_kept o f h hkeeps
      exact ⟨s, hs⟩
  refine ⟨{ b with accounts := b.accounts.set pubkey account, modified := pubkey :: b.modified, stakes := s },
    ?_, rfl, hs, fun h => ?_, rfl, rfl, rfl, rfl, rfl⟩
  · unfold storeAccount
    rw [assert_pos hopen, ok_bind]
    unfold Stakes.stored at hs
    split at hs
    · rename_i hstake
      obtain ⟨r, hr, hs⟩ := bind_eq_ok.mp hs
      cases hs
      simp only [if_pos hstake, hr, ok_bind]
    · rename_i hstake
      cases hs
      rw [if_neg hstake]
  · obtain ⟨s', hs', hvotes, hdelegations⟩ := stored_kept o f h hkeeps
    rw [hs] at hs'
    cases hs'
    exact ⟨hvotes, h.set hvotes hdelegations hkeeps _⟩

end BankState

end Panoptes.Runtime
