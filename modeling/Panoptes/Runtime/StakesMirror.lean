import Panoptes.Lib.Runs
import Panoptes.Runtime.Stakes

/-!
# The stakes cache mirrors the accounts

The cache is run next to the last stored version of every account.  A store of a stake account
exchanges the contribution of its old version to a vote account for that of the new one, and a
change of the epoch computes all contributions again, so the cache is a function of the stored
accounts, `Mirrors`.

It stays one as long as a delegated stake account is stored delegated or without lamports.  An
account that ceases to be delegated with lamports left gives back its contribution, but its
delegation stays in the map: the next store takes the contribution out a second time.

* `Cache`, `Call` — the cache with the stored accounts, and what a bank does with it.
* `adjustStake_spec` — what a store does to the stakes of all vote accounts.

Principal result: `stakes_mirror`.
-/

set_option autoImplicit false

namespace Panoptes.Runtime

open Lib Sdk StakeProgram Ledger Option
open Std (ExtTreeMap)

/-! ## The stored accounts -/

/-- The delegation of a stake account with lamports. -/
def delegationOf (account : BankAccount) : Option Delegation :=
  if account.owner = STAKE_PROGRAM_ID ∧ account.lamports ≠ 0 then delegationFrom account else none

def voteAccountOf (account : BankAccount) : Option BankAccount :=
  if account.owner = VOTE_PROGRAM_ID ∧ account.lamports ≠ 0 then some account else none

theorem delegationOf_default : delegationOf default = none := by
  simp [delegationOf, Account.default_lamports]

theorem voteAccountOf_default : voteAccountOf default = none := by
  simp [voteAccountOf, Account.default_lamports]

def delegatedTotal (stored : BankLedger) : Nat :=
  stored.total fun a => (delegationOf a).elim 0 Delegation.stake

/-- The cache and, for the statement, the last stored version of each account. -/
structure Cache where
  stakes : Stakes
  stored : BankLedger

def Cache.start (epoch : Nat) (history : StakeHistory) : Cache := ⟨⟨∅, ∅, epoch, history⟩, ∅⟩

/-- **The cache mirrors the accounts.** -/
structure Cache.Mirrors (c : Cache) : Prop where
  /-- The delegations are those of the last stored stake accounts with lamports. -/
  delegations : ∀ key, c.stakes.stakeDelegations[key]? = delegationOf (c.stored.get key)
  /-- The vote accounts are the last stored ones with lamports. -/
  voteAccounts : ∀ key, (c.stakes.voteAccounts[key]?).map Prod.snd =
    voteAccountOf (c.stored.get key)
  /-- The stake of a vote account is the sum of what its delegations have in effect. -/
  staked : ∀ key v, c.stakes.voteAccounts[key]? = some v →
    v.1 = delegatedTo c.stakes.stakeDelegations key c.stakes.epoch (some c.stakes.stakeHistory) true

/-- What a bank does with the cache. -/
inductive Call where
  | store (pubkey : Pubkey) (account : BankAccount)
  | cloneWithEpoch (nextEpoch : Nat)

namespace Call

/-- With `fix_stake_deactivate`. -/
def run (o : Overflow) (c : Cache) : Call → Except Panic Cache
  | .store pubkey account => do
    let (stakes, _) ← c.stakes.store o pubkey account true
    .ok ⟨stakes, c.stored.set pubkey account⟩
  | .cloneWithEpoch nextEpoch => do
    let stakes ← c.stakes.cloneWithEpoch o nextEpoch true
    .ok { c with stakes }

/-- What the runtime promises: vote and stake accounts are stored, an account changes its owner only
after it was stored without lamports, the delegated stakes add up to a `u64`, and epochs
increase. -/
def Respects (c : Cache) : Call → Prop
  | .store pubkey account =>
    (account.owner = VOTE_PROGRAM_ID ∨ account.owner = STAKE_PROGRAM_ID) ∧
    ((c.stored.get pubkey).lamports ≠ 0 → (c.stored.get pubkey).owner = account.owner) ∧
    delegatedTotal (c.stored.set pubkey account) < U64
  | .cloneWithEpoch nextEpoch => c.stakes.epoch ≤ nextEpoch

/-- A stake account whose delegation is in the cache is stored delegated or without lamports. -/
def Settled (c : Cache) : Call → Prop
  | .store pubkey account => account.owner = STAKE_PROGRAM_ID → account.lamports ≠ 0 →
    (c.stakes.stakeDelegations[pubkey]?).isSome → (delegationFrom account).isSome
  | .cloneWithEpoch _ => True

instance (c : Cache) (call : Call) : Decidable (call.Respects c) := by
  cases call <;> unfold Respects <;> infer_instance

instance (c : Cache) (call : Call) : Decidable (call.Settled c) := by
  cases call <;> unfold Settled <;> infer_instance

end Call

/-! ## Contributions -/

variable {m : VoteAccounts} {delegations : ExtTreeMap Pubkey Delegation} {c : Cache}

/-- What a contribution adds to the stake of a vote account. -/
def contribution (c : Option (Pubkey × Nat)) (voter : Pubkey) : Nat :=
  c.elim 0 fun c => if c.1 = voter then c.2 else 0

theorem modifyStake_spec {voter : Pubkey} (f : Nat → Except Panic Nat) (g : Nat → Nat)
    (hf : ∀ v, m[voter]? = some v → f v.1 = .ok (g v.1)) :
    ∃ m', modifyStake m voter f = .ok m' ∧
      ∀ key, m'[key]? = (m[key]?).map fun v => (if voter = key then g v.1 else v.1, v.2) := by
  unfold modifyStake
  split
  · rename_i staked account hget
    rw [hf _ hget]
    refine ⟨_, rfl, fun key => ?_⟩
    rw [getElem?_insert_ite]
    by_cases hkey : key = voter
    · rw [if_pos hkey, hkey, hget, map_some, if_pos rfl]
    · rw [if_neg hkey]
      cases m[key]? with
      | none => rfl
      | some => rw [map_some, if_neg (Ne.symm hkey)]
  · rename_i hget
    refine ⟨m, rfl, fun key => ?_⟩
    by_cases hkey : voter = key
    · rw [← hkey, hget]
      rfl
    · cases m[key]? with
      | none => rfl
      | some => rw [map_some, if_neg hkey]

theorem removeStake_spec (o : Overflow) {c : Option (Pubkey × Nat)}
    (h : ∀ key v, m[key]? = some v → contribution c key ≤ v.1) :
    ∃ m', removeStake o m c = .ok m' ∧
      ∀ key, m'[key]? = (m[key]?).map fun v => (v.1 - contribution c key, v.2) := by
  cases c with
  | none => exact ⟨m, rfl, fun key => by cases m[key]? <;> rfl⟩
  | some c =>
    obtain ⟨m', hm', hget⟩ := modifyStake_spec (fun staked => subU64 o staked c.2)
      (fun staked => staked - c.2) fun v hv =>
        subU64_ok o (by simpa [contribution] using h c.1 v hv)
    refine ⟨m', hm', fun key => ?_⟩
    rw [hget]
    simp only [contribution, elim_some]
    split <;> rfl

theorem addStake_spec (o : Overflow) {c : Option (Pubkey × Nat)}
    (h : ∀ key v, m[key]? = some v → v.1 + contribution c key < U64) :
    ∃ m', addStake o m c = .ok m' ∧
      ∀ key, m'[key]? = (m[key]?).map fun v => (v.1 + contribution c key, v.2) := by
  cases c with
  | none => exact ⟨m, rfl, fun key => by cases m[key]? <;> rfl⟩
  | some c =>
    obtain ⟨m', hm', hget⟩ := modifyStake_spec (fun staked => addU64 o staked c.2)
      (fun staked => staked + c.2) fun v hv =>
        addU64_ok o (by simpa [contribution] using h c.1 v hv)
    refine ⟨m', hm', fun key => ?_⟩
    rw [hget]
    simp only [contribution, elim_some]
    split <;> rfl

/-- **An exchange of contributions**, when the old one is in the stakes and the new one fits. -/
theorem adjustStake_spec (o : Overflow) {oldStake stake : Option (Pubkey × Nat)}
    (hold : ∀ key v, m[key]? = some v → contribution oldStake key ≤ v.1)
    (hnew : ∀ key v, m[key]? = some v →
      v.1 - contribution oldStake key + contribution stake key < U64) :
    ∃ m', adjustStake o m oldStake stake = .ok m' ∧ ∀ key, m'[key]? =
      (m[key]?).map fun v => (v.1 - contribution oldStake key + contribution stake key, v.2) := by
  unfold adjustStake
  split
  · obtain ⟨m₁, hm₁, hget₁⟩ := removeStake_spec o hold
    have hfits : ∀ key v, m₁[key]? = some v → v.1 + contribution stake key < U64 := by
      intro key v hv
      rw [hget₁] at hv
      obtain ⟨v₀, hv₀, rfl⟩ := map_eq_some_iff.mp hv
      exact hnew key v₀ hv₀
    obtain ⟨m₂, hm₂, hget₂⟩ := addStake_spec o hfits
    refine ⟨m₂, by rw [hm₁]; exact hm₂, fun key => ?_⟩
    rw [hget₂, hget₁, map_map]
    rfl
  · rename_i heq
    refine ⟨m, rfl, fun key => ?_⟩
    rw [not_not.mp heq]
    cases hkey : m[key]? with
    | none => rfl
    | some v => rw [map_some, Nat.sub_add_cancel (hold key v hkey)]

/-! ## Sums of delegations -/

section Sums

variable (delegations : ExtTreeMap Pubkey Delegation) (epoch : Nat) (history : Option StakeHistory)

def contributionOf (d : Option Delegation) (epoch : Nat) (history : Option StakeHistory)
    (voter : Pubkey) : Nat :=
  d.elim 0 fun d => if d.voterPubkey = voter then d.stakeAt epoch history true else 0

theorem delegatedTo_insert (key voter : Pubkey) (d : Delegation) :
    delegatedTo (delegations.insert key d) voter epoch history true
        + contributionOf delegations[key]? epoch history voter
      = delegatedTo delegations voter epoch history true + contributionOf (some d) epoch
        history voter :=
  mapSum_insert delegations _ key d

theorem delegatedTo_erase (key voter : Pubkey) :
    delegatedTo (delegations.erase key) voter epoch history true
        + contributionOf delegations[key]? epoch history voter
      = delegatedTo delegations voter epoch history true :=
  mapSum_erase delegations _ key

theorem delegatedTo_le (voter : Pubkey) :
    delegatedTo delegations voter epoch history true ≤ mapSum delegations fun _ d => d.stake := by
  refine mapSum_le fun _ d => ?_
  split
  · exact d.stakeAt_le epoch history true
  · exact Nat.zero_le _

end Sums

/-- Delegations that mirror the accounts add up to what the accounts have delegated. -/
theorem mapSum_delegations {stored : BankLedger}
    (h : ∀ key, delegations[key]? = delegationOf (stored.get key)) :
    mapSum delegations (fun _ (d : Delegation) => d.stake) = delegatedTotal stored := by
  have hdefault : (delegationOf default).elim 0 Delegation.stake = 0 := by
    rfl
  refine mapSum_congr fun key => ?_
  rw [h, elim_eq_get stored hdefault]

/-! ## Stores -/

section Stores

variable {pubkey : Pubkey} {account a : BankAccount}

/-- The other program's entry for the account is empty: it never had one, or was stored without
lamports. -/
theorem delegationOf_eq_none (h : a.lamports ≠ 0 → a.owner = VOTE_PROGRAM_ID) :
    delegationOf a = none := by
  refine if_neg fun ⟨howner, hlamports⟩ => ?_
  rw [h hlamports] at howner
  exact absurd howner (by decide)

theorem voteAccountOf_eq_none (h : a.lamports ≠ 0 → a.owner = STAKE_PROGRAM_ID) :
    voteAccountOf a = none := by
  refine if_neg fun ⟨howner, hlamports⟩ => ?_
  rw [h hlamports] at howner
  exact absurd howner (by decide)

section

variable (hkeep : (c.stored.get pubkey).lamports ≠ 0 → (c.stored.get pubkey).owner = account.owner)
include hkeep

theorem delegations_of_vote (hc : c.Mirrors) (howner : account.owner = VOTE_PROGRAM_ID)
    (key : Pubkey) :
    c.stakes.stakeDelegations[key]? = delegationOf ((c.stored.set pubkey account).get key) := by
  rw [hc.delegations, get_set]
  split
  · rename_i hkey
    rw [hkey, delegationOf_eq_none fun h => (hkeep h).trans howner, delegationOf_eq_none
      fun _ => howner]
  · rfl

theorem voteAccounts_of_stake (hc : c.Mirrors) (howner : account.owner = STAKE_PROGRAM_ID)
    (key : Pubkey) :
    (c.stakes.voteAccounts[key]?).map Prod.snd =
      voteAccountOf ((c.stored.set pubkey account).get key) := by
  rw [hc.voteAccounts, get_set]
  split
  · rename_i hkey
    rw [hkey, voteAccountOf_eq_none fun h => (hkeep h).trans howner, voteAccountOf_eq_none
      fun _ => howner]
  · rfl

theorem storeVote_spec (o : Overflow) (hc : c.Mirrors) (howner : account.owner = VOTE_PROGRAM_ID)
    (hfits : delegatedTotal c.stored < U64) :
    ∃ s, c.stakes.storeVote o pubkey account true = .ok s ∧
      Cache.Mirrors ⟨s, c.stored.set pubkey account⟩ := by
  have hdelegations := delegations_of_vote hkeep hc howner
  have hstake : c.stakes.stakeOfVote o pubkey true
      = .ok (delegatedTo c.stakes.stakeDelegations pubkey c.stakes.epoch
        (some c.stakes.stakeHistory) true) := by
    unfold Stakes.stakeOfVote
    split
    · rename_i staked _ hget
      have hstaked := hc.staked _ _ hget
      rw [← hstaked]
    · refine sumU64_ok o (lt_of_le_of_lt (delegatedTo_le _ _ _ pubkey) ?_)
      rwa [mapSum_delegations hc.delegations]
  unfold Stakes.storeVote
  split
  · rename_i hlamports
    rw [hstake]
    refine ⟨_, rfl, hdelegations, fun key => ?_, fun key v hv => ?_⟩
    · simp only [getElem?_insert_ite, getElem?_erase_ite, get_set]
      split
      · exact (if_pos ⟨howner, hlamports⟩).symm
      · exact hc.voteAccounts key
    · simp only [getElem?_insert_ite, getElem?_erase_ite] at hv
      split at hv
      · rename_i hkey
        cases hv
        rw [hkey]
      · exact hc.staked key v hv
  · rename_i hlamports
    refine ⟨_, rfl, hdelegations, fun key => ?_, fun key v hv => ?_⟩
    · simp only [getElem?_erase_ite, get_set]
      split
      · exact (if_neg fun h => hlamports h.2).symm
      · exact hc.voteAccounts key
    · exact hc.staked key v (getElem?_of_erase hv)

end

theorem getElem?_delegationsAfter (hc : c.Mirrors) (howner : account.owner = STAKE_PROGRAM_ID)
    (hsettled : account.lamports ≠ 0 → (c.stakes.stakeDelegations[pubkey]?).isSome →
      (delegationFrom account).isSome) (key : Pubkey) :
    (c.stakes.delegationsAfter pubkey account)[key]?
      = delegationOf ((c.stored.set pubkey account).get key) := by
  unfold Stakes.delegationsAfter
  rw [get_set]
  split
  · rename_i hlamports
    rw [getElem?_erase_ite]
    split
    · exact (if_neg fun h => h.2 hlamports).symm
    · exact hc.delegations key
  · rename_i hlamports
    have hof : delegationOf account = delegationFrom account := if_pos ⟨howner, hlamports⟩
    split
    · rename_i d hd
      rw [getElem?_insert_ite]
      split
      · rw [hof, hd]
      · exact hc.delegations key
    · rename_i hd
      split
      · rename_i hkey
        -- The account has no delegation, so by the condition the cache has none for it.
        rw [hof, hd, hkey]
        by_contra hsome
        have := hsettled hlamports (isSome_iff_ne_none.mpr hsome)
        rw [hd] at this
        cases this
      · exact hc.delegations key

/-- The contributions before and after a store account for the change of every sum. -/
theorem delegatedTo_delegationsAfter {s : Stakes}
    (hsettled : account.lamports ≠ 0 → (s.stakeDelegations[pubkey]?).isSome →
      (delegationFrom account).isSome) (voter : Pubkey) :
    delegatedTo (s.delegationsAfter pubkey account) voter s.epoch (some s.stakeHistory) true
        + contributionOf s.stakeDelegations[pubkey]? s.epoch (some s.stakeHistory) voter
      = delegatedTo s.stakeDelegations voter s.epoch (some s.stakeHistory) true
        + contribution (s.newStake account true) voter := by
  unfold Stakes.delegationsAfter
  split
  · rename_i hlamports
    have hzero : contribution (s.newStake account true) voter = 0 := by
      unfold Stakes.newStake
      cases delegationFrom account <;> simp [contribution, hlamports]
    rw [delegatedTo_erase, hzero, Nat.add_zero]
  · rename_i hlamports
    split
    · rename_i d hd
      rw [delegatedTo_insert, Stakes.newStake, hd]
      simp [contribution, contributionOf, hlamports]
    · rename_i hd
      have hnone : s.stakeDelegations[pubkey]? = none := by
        by_contra hsome
        have := hsettled hlamports (isSome_iff_ne_none.mpr hsome)
        rw [hd] at this
        cases this
      rw [hnone, Stakes.newStake, hd]
      rfl

theorem contribution_old (s : Stakes) (pubkey voter : Pubkey) :
    contribution (s.oldStake pubkey true) voter
      = contributionOf s.stakeDelegations[pubkey]? s.epoch (some s.stakeHistory) voter := by
  unfold Stakes.oldStake
  cases s.stakeDelegations[pubkey]? <;> rfl

theorem contributionOf_le (s : Stakes) (pubkey voter : Pubkey) :
    contributionOf s.stakeDelegations[pubkey]? s.epoch (some s.stakeHistory) voter
      ≤ delegatedTo s.stakeDelegations voter s.epoch (some s.stakeHistory) true := by
  have herase := delegatedTo_erase s.stakeDelegations s.epoch (some s.stakeHistory) pubkey voter
  omega

theorem storeStake_spec (o : Overflow) (hc : c.Mirrors) (howner : account.owner = STAKE_PROGRAM_ID)
    (hkeep : (c.stored.get pubkey).lamports ≠ 0 → (c.stored.get pubkey).owner = account.owner)
    (hfits : delegatedTotal (c.stored.set pubkey account) < U64)
    (hsettled : account.lamports ≠ 0 → (c.stakes.stakeDelegations[pubkey]?).isSome →
      (delegationFrom account).isSome) :
    ∃ s, c.stakes.storeStake o pubkey account true = .ok s ∧
      Cache.Mirrors ⟨s, c.stored.set pubkey account⟩ := by
  have hdelegations := getElem?_delegationsAfter hc howner hsettled
  have hsums := delegatedTo_delegationsAfter hsettled
  have hle := contributionOf_le c.stakes pubkey
  have hbound (voter : Pubkey) : delegatedTo (c.stakes.delegationsAfter pubkey account) voter
      c.stakes.epoch (some c.stakes.stakeHistory) true < U64 := by
    refine lt_of_le_of_lt (delegatedTo_le _ _ _ voter) ?_
    rwa [mapSum_delegations hdelegations]
  have hold : ∀ key v, c.stakes.voteAccounts[key]? = some v →
      contribution (c.stakes.oldStake pubkey true) key ≤ v.1 := by
    intro key v hv
    rw [contribution_old, hc.staked key v hv]
    exact hle key
  -- The stake of a vote account after the exchange is the sum over the new delegations.
  have hexchange : ∀ key v, c.stakes.voteAccounts[key]? = some v →
      v.1 - contribution (c.stakes.oldStake pubkey true) key
          + contribution (c.stakes.newStake account true) key
        = delegatedTo (c.stakes.delegationsAfter pubkey account) key c.stakes.epoch
          (some c.stakes.stakeHistory) true := by
    intro key v hv
    have hsum := hsums key
    have := hle key
    rw [contribution_old, hc.staked key v hv]
    omega
  obtain ⟨voteAccounts, hadjust, hget⟩ := adjustStake_spec o hold fun key v hv => by
    rw [hexchange key v hv]
    exact hbound key
  refine ⟨⟨voteAccounts, c.stakes.delegationsAfter pubkey account, c.stakes.epoch,
    c.stakes.stakeHistory⟩, ?_, hdelegations, fun key => ?_, fun key v hv => ?_⟩
  · rw [Stakes.storeStake, hadjust]
    rfl
  · rw [hget]
    refine Eq.trans ?_ (voteAccounts_of_stake hkeep hc howner key)
    cases c.stakes.voteAccounts[key]? <;> rfl
  · rw [hget] at hv
    obtain ⟨v₀, hv₀, rfl⟩ := map_eq_some_iff.mp hv
    exact hexchange key v₀ hv₀

end Stores

/-! ## A new epoch -/

theorem newStakeHistoryEntry_ok (o : Overflow) (epoch : Nat) (history : Option StakeHistory)
    (hfits : mapSum delegations (fun _ (d : Delegation) => d.stake) < U64) :
    ∃ entry, newStakeHistoryEntry o epoch delegations history true = .ok entry := by
  have hle := fun (d : Delegation) => d.stakeActivatingAndDeactivating_le epoch history true
  simp only [newStakeHistoryEntry]
  rw [sumU64_ok o (lt_of_le_of_lt (mapSum_le fun _ d => (hle d).1) hfits),
    sumU64_ok o (lt_of_le_of_lt (mapSum_le fun _ d => (hle d).2.1) hfits),
    sumU64_ok o (lt_of_le_of_lt (mapSum_le fun _ d => (hle d).2.2) hfits)]
  exact ⟨_, rfl⟩

theorem refreshVoteAccounts_spec (o : Overflow) (s : Stakes) (nextEpoch : Nat)
    (history : StakeHistory)
    (hfits : mapSum s.stakeDelegations (fun _ d => d.stake) < U64)
    (entries : List (Pubkey × Nat × BankAccount)) :
    ∃ m, s.refreshVoteAccounts o nextEpoch history true entries = .ok m ∧
      (∀ e ∈ entries, m[e.1]? ≠ none) ∧
      ∀ key v, m[key]? = some v →
        v.1 = delegatedTo s.stakeDelegations key nextEpoch (some history) true ∧
          ∃ staked, (key, staked, v.2) ∈ entries := by
  induction entries with
  | nil => exact ⟨∅, rfl, by simp, by simp⟩
  | cons e rest ih =>
    obtain ⟨m, hm, hmem, hall⟩ := ih
    obtain ⟨pubkey, staked, account⟩ := e
    have hstake := sumU64_ok o (lt_of_le_of_lt
      (delegatedTo_le s.stakeDelegations nextEpoch (some history) pubkey) hfits)
    refine ⟨m.insert pubkey (delegatedTo s.stakeDelegations pubkey nextEpoch (some history) true,
      account),
      ?_, fun e he => ?_, fun key v hv => ?_⟩
    · simp only [Stakes.refreshVoteAccounts, Stakes.calculateStake]
      rw [hstake, hm]
      rfl
    · rw [getElem?_insert_ite]
      split
      · exact some_ne_none _
      · rename_i hne
        rcases List.mem_cons.mp he with rfl | he
        · exact absurd rfl hne
        · exact hmem e he
    · rw [getElem?_insert_ite] at hv
      split at hv
      · rename_i hkey
        cases hv
        exact ⟨by rw [hkey], staked, by rw [hkey]; exact List.mem_cons_self⟩
      · obtain ⟨hv₁, staked', hv₂⟩ := hall key v hv
        exact ⟨hv₁, staked', List.mem_cons_of_mem _ hv₂⟩

theorem cloneWithEpoch_spec (o : Overflow) (hc : c.Mirrors) (hfits : delegatedTotal c.stored < U64)
    (nextEpoch : Nat) :
    ∃ s, c.stakes.cloneWithEpoch o nextEpoch true = .ok s ∧ Cache.Mirrors ⟨s, c.stored⟩ := by
  rw [← mapSum_delegations hc.delegations] at hfits
  unfold Stakes.cloneWithEpoch
  split
  · exact ⟨c.stakes, rfl, hc⟩
  · obtain ⟨entry, hentry⟩ :=
      newStakeHistoryEntry_ok o c.stakes.epoch (some c.stakes.stakeHistory) hfits
    obtain ⟨m, hm, hmem, hall⟩ := refreshVoteAccounts_spec o c.stakes nextEpoch
      (c.stakes.stakeHistory.add c.stakes.epoch entry) hfits c.stakes.voteAccounts.toList
    refine ⟨⟨m, c.stakes.stakeDelegations, nextEpoch,
      c.stakes.stakeHistory.add c.stakes.epoch entry⟩,
      ?_, hc.delegations, fun key => ?_, fun key v hv => (hall key v hv).1⟩
    · rw [hentry]
      show (do
        let voteAccounts ← c.stakes.refreshVoteAccounts o nextEpoch _ true _
        Except.ok ({ c.stakes with voteAccounts, epoch := nextEpoch, stakeHistory := _ } : Stakes))
          = _
      rw [hm]
      rfl
    · rw [← hc.voteAccounts key]
      cases hkey : m[key]? with
      | none =>
        cases hold : c.stakes.voteAccounts[key]? with
        | none => rfl
        | some => exact absurd hkey (hmem _ (ExtTreeMap.mem_toList_iff_getElem?_eq_some.mpr hold))
      | some v =>
        obtain ⟨-, staked, hold⟩ := hall key v hkey
        rw [ExtTreeMap.mem_toList_iff_getElem?_eq_some.mp hold]
        rfl

/-! ## Runs -/

theorem mirrors_start (epoch : Nat) (history : StakeHistory) :
    (Cache.start epoch history).Mirrors := by
  refine ⟨fun key => ?_, fun key => ?_, fun key v hv => ?_⟩
  · simp [Cache.start, Ledger.get, delegationOf_default]
  · simp [Cache.start, Ledger.get, voteAccountOf_default]
  · simp [Cache.start] at hv

/-- What a cache has in a run: it mirrors the accounts, and the delegated stakes add up to a
`u64`. -/
structure Cache.Sound (c : Cache) : Prop where
  mirrors : c.Mirrors
  fits : delegatedTotal c.stored < U64

/-- **A call returns**, and keeps the cache. -/
theorem Call.run_spec (o : Overflow) {call : Call} (hc : c.Sound) (hrespects : call.Respects c)
    (hsettled : call.Settled c) : ∃ c', call.run o c = .ok c' ∧ c'.Sound := by
  cases call with
  | store =>
    obtain ⟨howner, hkeep, hfits⟩ := hrespects
    simp only [Call.run, Stakes.store]
    rcases howner with howner | howner
    · obtain ⟨s, hs, hmirrors⟩ := storeVote_spec hkeep o hc.mirrors howner hc.fits
      rw [if_pos howner, hs]
      exact ⟨_, rfl, hmirrors, hfits⟩
    · obtain ⟨s, hs, hmirrors⟩ := storeStake_spec o hc.mirrors howner hkeep hfits (hsettled howner)
      rw [if_neg (by rw [howner]; decide), if_pos howner, hs]
      exact ⟨_, rfl, hmirrors, hfits⟩
  | cloneWithEpoch nextEpoch =>
    obtain ⟨s, hs, hmirrors⟩ := cloneWithEpoch_spec o hc.mirrors hc.fits nextEpoch
    simp only [Call.run]
    rw [hs]
    exact ⟨_, rfl, hmirrors, hc.fits⟩

theorem sound_start (epoch : Nat) (history : StakeHistory) : (Cache.start epoch history).Sound := by
  refine ⟨mirrors_start epoch history, ?_⟩
  rw [← mapSum_delegations (mirrors_start epoch history).delegations]
  have hempty : mapSum (∅ : ExtTreeMap Pubkey Delegation) (fun _ (d : Delegation) => d.stake) = 0 :=
    Finset.sum_eq_zero fun key _ => by simp
  exact hempty ▸ (by decide : 0 < U64)

/-- **The cache mirrors the accounts** in every state of every run in which a delegated stake
account is stored delegated or without lamports.  There every call returns, in a build that checks
its arithmetic as well: no subtraction underflows. -/
theorem stakes_mirror {o : Overflow} {epoch : Nat} {history : StakeHistory} {c : Cache}
    (h : Reachable (Call.run o) (fun c call => Call.Respects c call ∧ Call.Settled c call)
      (Cache.start epoch history) c) :
    c.Mirrors ∧ ∀ call : Call, call.Respects c → call.Settled c → ∃ c', call.run o c = .ok c' := by
  have hsound : c.Sound := by
    refine h.invariant (sound_start epoch history) fun c call c' hc hrule hrun => ?_
    obtain ⟨c₁, hc₁, hsound⟩ := Call.run_spec o hc hrule.1 hrule.2
    rw [hrun] at hc₁
    cases hc₁
    exact hsound
  refine ⟨hsound.mirrors, fun call hrespects hsettled => ?_⟩
  obtain ⟨c', hrun, -⟩ := Call.run_spec o hsound hrespects hsettled
  exact ⟨c', hrun⟩

/-! ### Runs of two accounts -/

def exampleVote : BankAccount := ⟨1, ⟨200, .other⟩, VOTE_PROGRAM_ID, false, 0⟩

def exampleStake (lamports : Nat) (state : StakeState) : BankAccount :=
  ⟨lamports, ⟨StakeState.SIZE, .stake state⟩, STAKE_PROGRAM_ID, false, 0⟩

/-- Ten lamports delegated to account 1, in effect from the start. -/
def delegated : StakeState :=
  .stake ⟨0, ⟨0, 0⟩, ⟨0, 0, 0⟩⟩ ⟨Delegation.new 1 10 EPOCH_MAX Config.default.warmupCooldownRate, 0⟩

/-- A stake account is delegated, seen through an epoch, and closed. -/
theorem stakes_mirror_closed : ∃ c,
    Reachable (Call.run .checked) (fun c call => Call.Respects c call ∧ Call.Settled c call)
      (Cache.start 0 ∅) c ∧ c.stakes.epoch = 1 ∧ c.Mirrors := by
  obtain ⟨c, hc, hepoch⟩ : ∃ c, Reachable (Call.run .checked)
      (fun c call => Call.Respects c call ∧ Call.Settled c call) (Cache.start 0 ∅) c ∧
        c.stakes.epoch = 1 :=
    exists_reachable [.store 1 exampleVote, .store 2 (exampleStake 10 delegated), .cloneWithEpoch 1,
      .store 2 (exampleStake 0 .uninitialized)] (by decide +kernel)
  exact ⟨c, hc, hepoch, (stakes_mirror hc).1⟩

/-- **A stale delegation**: a delegated stake account is emptied to `Uninitialized` and gets one
lamport in the same transaction.  Its contribution is taken out, its delegation stays, and when the
account is closed the contribution is taken out again, of a stake of 0. -/
theorem stakes_stale : ∃ c,
    Reachable (Call.run .checked) Call.Respects (Cache.start 0 ∅) c ∧
      ¬ c.Mirrors ∧ (Call.store 2 (exampleStake 0 .uninitialized)).Respects c ∧
      (Call.store 2 (exampleStake 0 .uninitialized)).run .checked c = .error .overflow := by
  obtain ⟨c, hc, hstale, hnone, hrespects, hpanic⟩ : ∃ c, Reachable (Call.run .checked)
      Call.Respects (Cache.start 0 ∅) c ∧
      (c.stakes.stakeDelegations[(2 : Pubkey)]?).isSome = true ∧
      delegationOf (c.stored.get 2) = none ∧
      (Call.store 2 (exampleStake 0 .uninitialized)).Respects c ∧
      (match (Call.store 2 (exampleStake 0 .uninitialized)).run .checked c with
        | .error p => decide (p = .overflow)
        | .ok _ => false) = true :=
    exists_reachable [.store 1 exampleVote, .store 2 (exampleStake 10 delegated),
      .store 2 (exampleStake 1 .uninitialized)] (by decide +kernel)
  refine ⟨c, hc, fun hmirrors => ?_, hrespects, ?_⟩
  · rw [hmirrors.delegations, hnone] at hstale
    cases hstale
  · split at hpanic
    · rename_i hrun
      rw [hrun, of_decide_eq_true hpanic]
    · cases hpanic

end Panoptes.Runtime
