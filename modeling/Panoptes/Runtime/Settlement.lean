import Panoptes.Runtime.Freeze

/-!
# Freezing a bank settles its counters

A bank's capitalization is the sum of its accounts and the two counters.  Each step of `freeze`
moves lamports between them: rent goes from accounts to its counter, fees and rent go from the
counters to accounts or are burned, and the sysvar and the incinerator change accounts and
capitalization together.

Two assertions can fail.  The rent of a vote account whose state cannot be read is not paid to
anybody, though its stake counts in the total, so that more is left over than there are validators
to pay it to; and a skipped rest of an epoch is taken for a single slot
(`RentCycle.SkipsRestOfEpoch`).

* `Freezable` — a bank before `freeze`.
* `collectRentEagerly_spec`, `collectFees_spec`, `distributeRentToValidators_spec` — the steps.

Principal result: `freeze_settles_iff`.
-/

set_option autoImplicit false

namespace Panoptes.Runtime

open Lib Sdk List Ledger BankState

variable {o : Overflow} {b' : BankState} {pubkey : Pubkey} {account : BankAccount}

/-- What the steps keep: an open bank, a cache that no store aborts, and the votes of a coherent
one. -/
structure KeepsCache (o : Overflow) (b b' : BankState) : Prop where
  cache : o = .wrapping ∨ b'.Coherent
  votes : b.Coherent → b'.stakes.votesView = b.stakes.votesView ∧ b'.Coherent
  opened : b'.freezeStarted = false
  frozen : b'.frozen = b.frozen
  collectorFees : b'.collectorFees = b.collectorFees

theorem KeepsCache.refl {b : BankState} (hcache : o = .wrapping ∨ b.Coherent)
    (hopen : b.freezeStarted = false) : KeepsCache o b b :=
  ⟨hcache, fun h => ⟨rfl, h⟩, hopen, rfl, rfl⟩

theorem KeepsCache.trans {b b'' : BankState} (h : KeepsCache o b b') (h' : KeepsCache o b' b'') :
    KeepsCache o b b'' where
  cache := h'.cache
  votes hb :=
    have hb' := h.votes hb
    ⟨(h'.votes hb'.2).1.trans hb'.1, (h'.votes hb'.2).2⟩
  opened := h'.opened
  frozen := h'.frozen.trans h.frozen
  collectorFees := h'.collectorFees.trans h.collectorFees

theorem KeepsCache.self {b : BankState} (h : KeepsCache o b b') :
    KeepsCache o b' b' := .refl h.cache h.opened

theorem KeepsCache.counters {b : BankState} (h : KeepsCache o b b')
    (capitalization collectedRent : Nat) (rewards : List (Pubkey × RewardInfo)) :
    KeepsCache o b { b' with capitalization, collectedRent, rewards } where
  cache := h.cache.imp_right fun hc => ⟨hc.votes, hc.delegations⟩
  votes hb := ⟨(h.votes hb).1, (h.votes hb).2.votes, (h.votes hb).2.delegations⟩
  opened := h.opened
  frozen := h.frozen
  collectorFees := h.collectorFees

theorem BankState.Stored.keepsCache {b : BankState} {f : StoreFeatures}
    (h : b.Stored o f pubkey account b') (hb : KeepsCache o b b) : KeepsCache o b b' :=
  ⟨hb.cache.imp_right fun hc => (h.coherent hc).2, h.coherent,
    h.freezeStarted.trans hb.opened, h.frozen,
    h.collectorFees⟩

/-- What is stored in place of an account changes the sum by their difference. -/
theorem BankState.Stored.lamports {b : BankState} {f : StoreFeatures}
    (h : b.Stored o f pubkey account b') :
    b'.accounts.lamports + (b.accounts.get pubkey).lamports =
      b.accounts.lamports + account.lamports := by
  rw [h.accounts]
  exact b.accounts.lamports_set pubkey account

namespace FreezeEnv

variable (o : Overflow) (env : FreezeEnv) {b : BankState}

/-! ## Rent of a partition -/

variable {rent : Nat} {entry : Pubkey × BankAccount} {accounts : BankLedger}
  {partitions : List Partition} {votes : List (Pubkey × Nat × AccountData)} {v : Pubkey × Nat}

/-- An account after its rent is the one that the cache has, or empty. -/
theorem keeps_collected (hget : b.accounts.get pubkey = account)
    (hne : account.lamports ≠ 0) (fix : Bool) :
    b.Keeps pubkey (env.rentCollector.collectFromExistingAccount pubkey account fix).1 := by
  intro hstake
  by_cases h : (env.rentCollector.collectFromExistingAccount pubkey account fix).1.lamports = 0
  · rw [env.rentCollector.collectFromExistingAccount_empty pubkey account fix hne h] at hstake
    cases hstake
  · obtain ⟨hdata, howner⟩ := env.rentCollector.collectFromExistingAccount_kept pubkey account fix h
    rw [hget]
    exact ⟨h, hne, hdata, howner⟩

/-- An account after its rent; an empty one is not looked at. -/
def collected (env : FreezeEnv) (key : Pubkey) (account : BankAccount) : BankAccount :=
  if account.lamports = 0 then account
  else (env.rentCollector.collectFromExistingAccount key account
    env.rentCycle.cumulativeRentRelatedFixesEnabled).1

theorem collected_collected (key : Pubkey) (account : BankAccount) :
    env.collected key (env.collected key account) = env.collected key account := by
  by_cases h : (env.collected key account).lamports = 0
  · rw [collected, if_pos h]
  · have hne : account.lamports ≠ 0 := fun h0 => h (by rw [collected, if_pos h0, h0])
    rw [collected, if_neg h]
    rw [collected, if_neg hne] at h ⊢
    rw [env.rentCollector.collectFromExistingAccount_twice key account _ h]

/-- The stores of the accounts take the first cache to the second. -/
def Caches (o : Overflow) (env : FreezeEnv) (s : Stakes)
    (entries : List (Pubkey × BankAccount)) (s' : Stakes) : Prop :=
  entries.foldlM (Stakes.stored o env.toStoreFeatures) s = .ok s'

theorem Caches.append {o : Overflow} {env : FreezeEnv} {s s' s'' : Stakes}
    {entries entries' : List (Pubkey × BankAccount)}
    (h : Caches o env s entries s') (h' : Caches o env s' entries' s'') :
    Caches o env s (entries ++ entries') s'' := by
  rw [Caches, foldlM_append, h]
  exact h'

/-- What a bank and the rent taken so far have together. -/
theorem collectRentFrom_spec (hb : KeepsCache o b b)
    (hget : b.accounts.get entry.1 = entry.2) (hne : entry.2.lamports ≠ 0)
    (hlt : b.accounts.lamports + rent < U64) :
    ∃ b' rent', env.collectRentFrom o (b, rent) entry = .ok (b', rent') ∧ KeepsCache o b b' ∧
      b'.capitalization = b.capitalization ∧ b'.collectedRent = b.collectedRent ∧
      b'.accounts.lamports + rent' = b.accounts.lamports + rent ∧
      b'.accounts = b.accounts.set entry.1 (env.collected entry.1 entry.2) ∧
      Caches o env b.stakes [(entry.1, env.collected entry.1 entry.2)] b'.stakes := by
  have hsum := env.rentCollector.collectFromExistingAccount_lamports entry.1 entry.2
    env.rentCycle.cumulativeRentRelatedFixesEnabled
  have hle := b.accounts.get_lamports_le entry.1
  have hkeeps : b.Keeps entry.1 (env.rentCollector.collectFromExistingAccount entry.1 entry.2
      env.rentCycle.cumulativeRentRelatedFixesEnabled).1 := keeps_collected env hget hne _
  obtain ⟨b', hstore, hstored⟩ := storeAccount_spec env.toStoreFeatures hb.opened hb.cache hkeeps
  have hlamports := hstored.lamports
  rw [hget] at hle hlamports
  refine ⟨b', rent + (env.rentCollector.collectFromExistingAccount entry.1 entry.2
      env.rentCycle.cumulativeRentRelatedFixesEnabled).2, ?_, hstored.keepsCache hb,
    hstored.capitalization, hstored.collectedRent, ?_, ?_, ?_⟩
  · simp only [collectRentFrom]
    rw [addU64_ok o (by omega), hstore]
    rfl
  · omega
  · rw [hstored.accounts, collected, if_neg hne]
  · rw [Caches, foldlM_cons, collected, if_neg hne, hstored.stakes]
    rfl

theorem collectRentFrom_fold {entries : List (Pubkey × BankAccount)}
    (hnodup : (entries.map Prod.fst).Nodup) (hpos : ∀ entry ∈ entries, entry.2.lamports ≠ 0) :
    ∀ (b : BankState) (rent : Nat), KeepsCache o b b →
      (∀ entry ∈ entries, b.accounts.get entry.1 = entry.2) → b.accounts.lamports + rent < U64 →
      ∃ b' rent', entries.foldlM (env.collectRentFrom o) (b, rent) = .ok (b', rent') ∧
        KeepsCache o b b' ∧
        b'.capitalization = b.capitalization ∧ b'.collectedRent = b.collectedRent ∧
        b'.accounts.lamports + rent' = b.accounts.lamports + rent ∧
        b'.accounts =
          b.accounts.setAll (entries.map fun entry => (entry.1, env.collected entry.1 entry.2)) ∧
        Caches o env b.stakes (entries.map fun entry => (entry.1, env.collected entry.1 entry.2))
          b'.stakes := by
  induction entries with
  | nil =>
    exact fun b rent hb _ _ => ⟨b, rent, rfl, hb, rfl, rfl, rfl, rfl, rfl⟩
  | cons entry entries ih =>
    intro b rent hb hget hlt
    simp only [map_cons, nodup_cons] at hnodup
    obtain ⟨hne, hpos⟩ := forall_mem_cons.mp hpos
    obtain ⟨hgete, hget⟩ := forall_mem_cons.mp hget
    obtain ⟨b₁, rent₁, hrun, hkeep, hcap, hrent, hsum, hset, hcache⟩ :=
      collectRentFrom_spec o env hb hgete hne hlt
    -- The other entries are of other keys, and as they were.
    have hget₁ : ∀ entry' ∈ entries, b₁.accounts.get entry'.1 = entry'.2 := by
      intro entry' he
      have hne' : entry'.1 ≠ entry.1 := fun heq => hnodup.1 (heq ▸ mem_map_of_mem he)
      rw [hset, get_set_of_ne _ _ hne']
      exact hget entry' he
    obtain ⟨b₂, rent₂, hruns, hkeep₂, hcap₂, hrent₂, hsum₂, hset₂, hcache₂⟩ :=
      ih hnodup.2 hpos b₁ rent₁ hkeep.self hget₁ (by omega)
    refine ⟨b₂, rent₂, ?_, hkeep.trans hkeep₂, hcap₂.trans hcap, hrent₂.trans hrent, by omega, ?_,
      hcache.append hcache₂⟩
    · rw [foldlM_cons, hrun]
      exact hruns
    · rw [hset₂, hset]
      rfl

theorem accountsInRange_nodup (accounts : BankLedger) (range : Pubkey × Pubkey) :
    ((accountsInRange accounts range).map Prod.fst).Nodup :=
  (nodup_keys_toList accounts).sublist (filter_sublist.map _)

theorem get_of_mem_accountsInRange {range : Pubkey × Pubkey}
    (h : entry ∈ accountsInRange accounts range) :
    accounts.get entry.1 = entry.2 ∧ entry.2.lamports ≠ 0 := by
  obtain ⟨hmem, hcond⟩ := mem_filter.mp h
  simp only [Bool.and_eq_true, decide_eq_true_eq] at hcond
  refine ⟨?_, by omega⟩
  rw [Ledger.get, getElem?_of_mem_toList hmem, Option.getD_some]

/-- The accounts of a partition after their rent. -/
def rentEntriesIn (env : FreezeEnv) (accounts : BankLedger) (p : Partition) :
    List (Pubkey × BankAccount) :=
  match pubkeyRangeFromPartition p with
  | .ok range => (accountsInRange accounts range).map fun entry =>
    (entry.1, env.collected entry.1 entry.2)
  | .error _ => []

/-- The accounts that are stored with their rent collected, one partition after the other. -/
def rentEntries (env : FreezeEnv) : BankLedger → List Partition → List (Pubkey × BankAccount)
  | _, [] => []
  | accounts, p :: ps =>
    env.rentEntriesIn accounts p ++
      env.rentEntries (accounts.setAll (env.rentEntriesIn accounts p)) ps

theorem get_setAll_collected (accounts : BankLedger) (range : Pubkey × Pubkey) (key : Pubkey) :
    get (setAll accounts ((accountsInRange accounts range).map fun entry =>
        (entry.1, env.collected entry.1 entry.2))) key
      = if range.1 ≤ key ∧ key ≤ range.2 then env.collected key (accounts.get key)
        else accounts.get key := by
  have hkeys : ((accountsInRange accounts range).map fun entry =>
      (entry.1, env.collected entry.1 entry.2)).map Prod.fst =
        (accountsInRange accounts range).map Prod.fst := by
    rw [map_map]
    rfl
  by_cases hmem : ∃ entry ∈ accountsInRange accounts range, entry.1 = key
  · obtain ⟨entry, hmem, rfl⟩ := hmem
    have hrange : range.1 ≤ entry.1 ∧ entry.1 ≤ range.2 := by
      have := (mem_filter.mp hmem).2
      simp only [Bool.and_eq_true, decide_eq_true_eq] at this
      exact this.1
    rw [if_pos hrange, (get_of_mem_accountsInRange hmem).1]
    refine get_setAll_of_mem accounts ?_ (mem_map_of_mem hmem)
    rw [hkeys]
    exact accountsInRange_nodup accounts range
  · rw [get_setAll_of_notMem _ _ (by rw [hkeys]; simpa using fun a ha => hmem ⟨_, ha, rfl⟩)]
    split
    · rename_i hrange
      -- A key of the range without an entry holds an empty account.
      have hempty : (accounts.get key).lamports = 0 := by
        by_contra hne
        cases hsome : accounts[key]? with
        | none => exact hne (by rw [Ledger.get, hsome]; exact Account.default_lamports)
        | some account =>
          refine hmem ⟨(key, account), mem_filter.mpr ⟨exists_mem_toList hsome, ?_⟩, rfl⟩
          rw [Ledger.get, hsome] at hne
          simp only [Option.getD_some] at hne
          simp [hrange.1, hrange.2, Nat.pos_of_ne_zero hne]
      rw [collected, if_pos hempty]
    · rfl

theorem get_setAll_rentEntries (accounts : BankLedger) (partitions : List Partition)
    (key : Pubkey) : get (setAll accounts (env.rentEntries accounts partitions)) key
      = if partitions.any (Partition.contains · key) = true then
          env.collected key (accounts.get key)
        else accounts.get key := by
  induction partitions generalizing accounts with
  | nil => rfl
  | cons p partitions ih =>
    have hget : get (setAll accounts (env.rentEntriesIn accounts p)) key
        = if p.contains key = true then env.collected key (accounts.get key)
          else accounts.get key := by
      unfold rentEntriesIn Partition.contains
      cases pubkeyRangeFromPartition p with
      | error => rfl
      | ok range => simpa using get_setAll_collected env accounts range key
    -- An account of two partitions pays once.
    rw [rentEntries, setAll_append, ih, hget, any_cons]
    cases p.contains key <;> cases partitions.any (Partition.contains · key) <;>
      simp [collected_collected]

theorem collectRentInPartition_spec {partition : Partition} (hvalid : partition.IsValid)
    (hb : KeepsCache o b b) (hlt : b.accounts.lamports + b.collectedRent < U64) :
    ∃ b', env.collectRentInPartition o b partition = .ok b' ∧ KeepsCache o b b' ∧
      b'.capitalization = b.capitalization ∧
      b'.accounts.lamports + b'.collectedRent = b.accounts.lamports + b.collectedRent ∧
      b'.accounts = b.accounts.setAll (env.rentEntriesIn b.accounts partition) ∧
      Caches o env b.stakes (env.rentEntriesIn b.accounts partition) b'.stakes := by
  obtain ⟨range, hrange⟩ := pubkeyRangeFromPartition_returns hvalid
  obtain ⟨b', rent, hrun, hkeep, hcap, hrent, hsum, hset, hcache⟩ :=
    collectRentFrom_fold o env (accountsInRange_nodup b.accounts range)
      (fun entry he => (get_of_mem_accountsInRange he).2) b 0 hb
      (fun entry he => (get_of_mem_accountsInRange he).1) (by omega)
  simp only [rentEntriesIn, hrange]
  refine ⟨{ b' with collectedRent := wrapAdd b'.collectedRent rent }, ?_,
    hkeep.counters _ _ _, hcap, ?_, hset,
    hcache⟩
  · exact bind_eq_ok.mpr ⟨range, hrange, bind_eq_ok.mpr ⟨(b', rent), hrun, rfl⟩⟩
  · dsimp only
    rw [wrapAdd_eq (by omega)]
    omega

theorem collectRentInPartition_fold (hvalid : ∀ p ∈ partitions, p.IsValid) :
    ∀ b : BankState, KeepsCache o b b → b.accounts.lamports + b.collectedRent < U64 →
      ∃ b', partitions.foldlM (env.collectRentInPartition o) b = .ok b' ∧ KeepsCache o b b' ∧
        b'.capitalization = b.capitalization ∧
        b'.accounts.lamports + b'.collectedRent = b.accounts.lamports + b.collectedRent ∧
        b'.accounts = b.accounts.setAll (env.rentEntries b.accounts partitions) ∧
        Caches o env b.stakes (env.rentEntries b.accounts partitions) b'.stakes := by
  induction partitions with
  | nil => exact fun b hb _ => ⟨b, rfl, hb, rfl, rfl, rfl, rfl⟩
  | cons p partitions ih =>
    intro b hb hlt
    obtain ⟨hp, hvalid⟩ := forall_mem_cons.mp hvalid
    obtain ⟨b₁, hrun, hkeep, hcap, hsum, hset, hcache⟩ :=
      collectRentInPartition_spec o env hp hb hlt
    obtain ⟨b₂, hruns, hkeep₂, hcap₂, hsum₂, hset₂, hcache₂⟩ := ih hvalid b₁ hkeep.self (by omega)
    rw [hset] at hset₂ hcache₂
    refine ⟨b₂, ?_, hkeep.trans hkeep₂, hcap₂.trans hcap, by omega, ?_, hcache.append hcache₂⟩
    · rw [foldlM_cons, hrun]
      exact hruns
    · rw [hset₂, rentEntries, setAll_append]

theorem isValid_of_fold
    (h : partitions.foldlM (env.collectRentInPartition o) b = .ok b') :
    ∀ p ∈ partitions, p.IsValid := by
  induction partitions generalizing b with
  | nil => simp
  | cons p partitions ih =>
    obtain ⟨b₁, hrun, h⟩ := bind_eq_ok.mp h
    obtain ⟨range, hrange, -⟩ := bind_eq_ok.mp hrun
    exact forall_mem_cons.mpr ⟨isValid_of_range hrange, ih h⟩

/-- The keys of the accounts that the bank collects rent from. -/
def collectsFrom (o : Overflow) (env : FreezeEnv) (key : Pubkey) : Bool :=
  !env.lazyRentCollection && match env.rentCycle.rentCollectionPartitions o with
    | .ok partitions => partitions.any (Partition.contains · key)
    | .error _ => false

/-- The rent that is due from the accounts of the bank's partitions. -/
def rentDue (o : Overflow) (env : FreezeEnv) (accounts : BankLedger) : Nat :=
  mapSum accounts fun key account =>
    if env.collectsFrom o key then (env.rentCollector.collectFromExistingAccount key account
      env.rentCycle.cumulativeRentRelatedFixesEnabled).2
    else 0

/-- The accounts that `collect_rent_eagerly` stores. -/
def collectedEntries (o : Overflow) (env : FreezeEnv) (accounts : BankLedger) :
    List (Pubkey × BankAccount) :=
  if env.lazyRentCollection then []
  else match env.rentCycle.rentCollectionPartitions o with
    | .ok partitions => env.rentEntries accounts partitions
    | .error _ => []

/-- The partitions pass their assertions. -/
def Partitions (env : FreezeEnv) : Prop :=
  env.lazyRentCollection = true ∨ ¬ env.rentCycle.SkipsRestOfEpoch

instance (env : FreezeEnv) : Decidable env.Partitions := inferInstanceAs (Decidable (_ ∨ _))

theorem collected_lamports (key : Pubkey) (account : BankAccount) :
    (env.collected key account).lamports + (env.rentCollector.collectFromExistingAccount key account
      env.rentCycle.cumulativeRentRelatedFixesEnabled).2 = account.lamports := by
  have h := env.rentCollector.collectFromExistingAccount_lamports key account
    env.rentCycle.cumulativeRentRelatedFixesEnabled
  unfold collected
  split
  · omega
  · exact h

theorem lamports_of_collected {accounts' : BankLedger} (h : ∀ key : Pubkey, get accounts' key
      = if env.collectsFrom o key = true then env.collected key (get accounts key)
        else get accounts key) :
    lamports accounts' + env.rentDue o accounts = lamports accounts := by
  have hleft : lamports accounts' = mapSum accounts fun key account =>
      if env.collectsFrom o key then (env.collected key account).lamports
        else account.lamports := by
    refine mapSum_congr fun key => ?_
    rw [elim_eq_get accounts' Account.default_lamports, h]
    unfold Ledger.get
    cases accounts[key]? with
    | none =>
      have hempty : env.collected key (default : BankAccount) = default :=
        if_pos Account.default_lamports
      simp [hempty, Account.default_lamports]
    | some account =>
      split <;> rfl
  rw [hleft, rentDue, ← mapSum_add]
  refine mapSum_congr fun key => ?_
  cases accounts[key]? with
  | none => rfl
  | some account =>
    split
    · exact env.collected_lamports key account
    · rfl

section

variable (hwf : env.rentCycle.epochSchedule.WellFormed)
  (hslot : env.rentCycle.parentSlot ≤ env.rentCycle.slot)
  (hfixes : env.rentCycle.cumulativeRentRelatedFixesEnabled = true)
include hwf hslot hfixes

theorem collectRentEagerly_spec (hpartitions : env.Partitions)
    (hb : KeepsCache o b b) (hlt : b.accounts.lamports + b.collectedRent < U64) :
    ∃ b', env.collectRentEagerly o b = .ok b' ∧ KeepsCache o b b' ∧
      b'.capitalization = b.capitalization ∧
      b'.collectedRent = b.collectedRent + env.rentDue o b.accounts ∧
      b'.accounts.lamports + env.rentDue o b.accounts = b.accounts.lamports ∧
      b'.accounts = b.accounts.setAll (env.collectedEntries o b.accounts) ∧
      Caches o env b.stakes (env.collectedEntries o b.accounts) b'.stakes := by
  cases hlazy : env.lazyRentCollection with
  | true =>
    have hnone : ∀ key, env.collectsFrom o key = false := fun key => by simp [collectsFrom, hlazy]
    have hsame : ∀ key : Pubkey, get b.accounts key
        = if env.collectsFrom o key = true then env.collected key (get b.accounts key)
          else get b.accounts key := fun key => by simp [hnone]
    have hsum := env.lamports_of_collected o hsame
    simp only [collectedEntries, hlazy]
    exact ⟨b, by simp [collectRentEagerly, hlazy], hb, rfl, by omega, hsum, rfl, rfl⟩
  | false =>
    have hskips : ¬ env.rentCycle.SkipsRestOfEpoch := hpartitions.resolve_left (by simp [hlazy])
    obtain ⟨ps, hps, hvalid⟩ := (RentCycle.partitions_returns_iff o hwf hslot hfixes).mpr hskips
    obtain ⟨b', hrun, hkeep, hcap, hsum, hset, hcache⟩ :=
      env.collectRentInPartition_fold o hvalid b hb hlt
    have hcollects : ∀ key, env.collectsFrom o key = ps.any (Partition.contains · key) :=
      fun key => by
      simp [collectsFrom, hlazy, hps]
    have hlamports := env.lamports_of_collected o fun key : Pubkey => by
      rw [hcollects]
      exact env.get_setAll_rentEntries b.accounts ps key
    rw [← hset] at hlamports
    simp only [collectRentEagerly, collectedEntries, hlazy, hps]
    exact ⟨b', hrun, hkeep, hcap, by omega, hlamports, hset, hcache⟩

theorem partitions_of_collectRentEagerly (h : env.collectRentEagerly o b = .ok b') :
    env.Partitions := by
  unfold collectRentEagerly at h
  split at h
  · rename_i hlazy
    exact .inl hlazy
  · obtain ⟨ps, hps, h⟩ := bind_eq_ok.mp h
    exact .inr
      ((RentCycle.partitions_returns_iff o hwf hslot hfixes).mp ⟨ps, hps, isValid_of_fold o env h⟩)

end

/-! ## Fees -/

theorem burnPortion_eq {percent amount : Nat} (hpercent : percent ≤ 100)
    (hproduct : amount * percent < U64) :
    burnPortion o percent amount = .ok (amount * percent / 100, amount - amount * percent / 100) ∧
      amount * percent / 100 ≤ amount := by
  have hle : amount * percent / 100 ≤ amount :=
    Nat.div_le_of_le_mul (by rw [Nat.mul_comm 100]; exact Nat.mul_le_mul_left _ hpercent)
  refine ⟨?_, hle⟩
  simp only [burnPortion, mulU64_ok o hproduct, ok_bind, subU64_ok o hle]

theorem deposit_spec (pubkey : Pubkey) (lamports : Nat)
    (hfixes : env.rentCycle.cumulativeRentRelatedFixesEnabled = true) (hb : KeepsCache o b b)
    (hlt : b.accounts.lamports + lamports < U64) (hrent : b.collectedRent < U64) :
    ∃ b' balance, env.deposit o b pubkey lamports = .ok (b', balance) ∧ KeepsCache o b b' ∧
      b'.capitalization = b.capitalization ∧ b'.collectedRent = b.collectedRent ∧
      b'.accounts.lamports = b.accounts.lamports + lamports ∧
      Caches o env b.stakes [(pubkey, b.credited pubkey lamports)] b'.stakes := by
  have hle := b.accounts.get_lamports_le pubkey
  have hbalance := b.getAccountOrDefault_lamports pubkey
  obtain ⟨b', hstore, hstored⟩ :=
    storeAccount_spec env.toStoreFeatures hb.opened hb.cache (b.keeps_add pubkey lamports)
  have hsum := hstored.lamports
  refine ⟨b', (b.accounts.get pubkey).lamports + lamports, ?_, hstored.keepsCache hb,
    hstored.capitalization, hstored.collectedRent, ?_, ?_⟩
  · have hsame : ({ b with collectedRent := wrapAdd b.collectedRent 0 } : BankState) = b := by
      rw [wrapAdd_eq (by omega), Nat.add_zero]
    have hadd : addU64 o (b.accounts.get pubkey).lamports lamports
        = .ok ((b.accounts.get pubkey).lamports + lamports) := addU64_ok o (by omega)
    rw [credited] at hstore
    simp only [deposit, hfixes, if_true, hbalance, hadd, ok_bind, hsame, hstore]
  · rw [credited_lamports] at hsum
    omega
  · rw [Caches, foldlM_cons, hstored.stakes]
    rfl

/-- The accounts that `collect_fees` stores: that of the collector. -/
def feeEntries (env : FreezeEnv) (b : BankState) : List (Pubkey × BankAccount) :=
  if b.collectorFees = 0 then []
  else [(env.collectorId, b.credited env.collectorId
    (b.collectorFees - b.collectorFees * env.feeBurnPercent / 100))]

theorem collectFees_spec (hfixes : env.rentCycle.cumulativeRentRelatedFixesEnabled = true)
    (hb : KeepsCache o b b)
    (hcap : b.capitalization = b.accounts.lamports + b.collectedRent + b.collectorFees)
    (hlt : b.capitalization < U64) (hpercent : env.feeBurnPercent ≤ 100)
    (hproduct : b.collectorFees * env.feeBurnPercent < U64) :
    ∃ b', env.collectFees o b = .ok b' ∧ KeepsCache o b b' ∧ b'.collectedRent = b.collectedRent ∧
      b'.capitalization = b'.accounts.lamports + b'.collectedRent ∧
        b'.capitalization ≤ b.capitalization ∧
      Caches o env b.stakes (env.feeEntries b) b'.stakes := by
  unfold collectFees feeEntries
  by_cases hfees : b.collectorFees = 0
  · rw [if_neg (not_not.mpr hfees), if_pos hfees]
    exact ⟨b, rfl, hb, rfl, by omega, le_rfl, rfl⟩
  · obtain ⟨hburn, hle⟩ := burnPortion_eq o hpercent hproduct
    obtain ⟨b', balance, hdeposit, hkeep, hcap', hrent, hsum, hcache⟩ :=
      env.deposit_spec o env.collectorId
      (b.collectorFees - b.collectorFees * env.feeBurnPercent / 100) hfixes hb (by omega) (by omega)
    rw [if_pos hfees, if_neg hfees, hburn, ok_bind]
    refine ⟨_, bind_eq_ok.mpr ⟨_, hdeposit, rfl⟩, hkeep.counters _ _ _, hrent, ?_, ?_, hcache⟩
    · dsimp only
      rw [wrapSub_eq (by omega) (by omega)]
      omega
    · dsimp only
      rw [wrapSub_eq (by omega) (by omega)]
      omega

/-! ## Shares of the rent -/

theorem sum_div_le (xs : List Nat) (r t : Nat) :
    (xs.map fun s => s * r / t).sum ≤ xs.sum * r / t := by
  induction xs with
  | nil => simp
  | cons x xs ih =>
    simp only [sum_cons, Nat.add_mul]
    exact (Nat.add_le_add_left ih _).trans (Nat.div_add_div_le_add_div)

theorem validatorStakes_sum_le (votes : List (Pubkey × Nat × AccountData)) :
    ((validatorStakes votes).map Prod.snd).sum ≤ ((stakedVotes votes).map fun v => v.2.1).sum := by
  unfold validatorStakes
  induction stakedVotes votes with
  | nil => simp
  | cons v vs ih =>
    rw [filterMap_cons]
    cases nodePubkey v.2.2 with
    | none => simp only [Option.map_none, map_cons, sum_cons]; omega
    | some node => simp only [Option.map_some, map_cons, sum_cons]; omega

def share (rent totalStaked : Nat) (v : Pubkey × Nat) : Pubkey × Nat :=
  (v.1, v.2 * rent / totalStaked)

theorem rentShares_eq (hno : env.noOverflowRentDistributionEnabled = true) {totalStaked : Nat}
    (hrent : rent < U64) (htotal : totalStaked ≠ 0) {stakes : List (Pubkey × Nat)}
    (hle : ∀ v ∈ stakes, v.2 ≤ totalStaked) :
    env.rentShares o rent totalStaked stakes = .ok (stakes.map (share rent totalStaked)) := by
  unfold rentShares
  induction stakes with
  | nil => rfl
  | cons v stakes ih =>
    obtain ⟨hv, hle⟩ := forall_mem_cons.mp hle
    have hshare : v.2 * rent / totalStaked < U64 := by
      refine lt_of_le_of_lt (Nat.div_le_of_le_mul ?_) hrent
      exact Nat.mul_le_mul_right _ hv
    have hone : env.rentShare o rent totalStaked v.2 = .ok (v.2 * rent / totalStaked) := by
      simp only [rentShare, hno, Bool.true_eq_false, if_false, if_neg htotal, if_pos hshare]
    rw [mapM_cons, ih hle]
    simp only [hone]
    rfl

theorem rentToBePaid_eq {rentShare leftover : Nat} (hlt : rentShare + leftover < U64) :
    ∃ paid, rentToBePaid o rentShare leftover = .ok (paid, leftover - 1) ∧
      paid + (leftover - 1) = rentShare + leftover := by
  unfold rentToBePaid
  by_cases h : 0 < leftover
  · refine ⟨rentShare + 1, ?_, by omega⟩
    rw [if_pos h, addU64_ok o (by omega), ok_bind]
  · refine ⟨rentShare, ?_, by omega⟩
    rw [if_neg h, show leftover - 1 = leftover by omega]

/-- What a node is paid, for all of its vote accounts. -/
def received (payments : List (Pubkey × Nat)) (key : Pubkey) : Nat :=
  (payments.map fun v => if v.1 = key then v.2 else 0).sum

/-- The bank after payments: they go to their keys, and nothing else changes. -/
structure Paid (o : Overflow) (b b' : BankState) (payments : List (Pubkey × Nat)) : Prop
    extends KeepsCache o b b' where
  capitalization : b'.capitalization = b.capitalization
  balance : ∀ key, (get b'.accounts key).lamports =
    (get b.accounts key).lamports + received payments key
  lamports : b'.accounts.lamports = b.accounts.lamports + (payments.map Prod.snd).sum

theorem Paid.cons {o : Overflow} {b₁ b₂ : BankState} {payments : List (Pubkey × Nat)}
    (h : Paid o b b₁ [v]) (h' : Paid o b₁ b₂ payments) : Paid o b b₂ (v :: payments) where
  toKeepsCache := h.toKeepsCache.trans h'.toKeepsCache
  capitalization := h'.capitalization.trans h.capitalization
  balance key := by
    rw [h'.balance, h.balance]
    simp only [received, map_cons, sum_cons, map_nil, sum_nil]
    omega
  lamports := by
    rw [h'.lamports, h.lamports]
    simp only [map_cons, sum_cons, map_nil, sum_nil]
    omega

theorem payRent_spec (hno : env.noOverflowRentDistributionEnabled = true) (leftover : Nat)
    (v : Pubkey × Nat) (hb : KeepsCache o b b)
    (hlt : b.accounts.lamports + v.2 + leftover < U64) :
    ∃ b', env.payRent o (b, leftover) v = .ok (b', leftover - 1) ∧
      Paid o b b' [(v.1, v.2 + min leftover 1)] := by
  have hle := b.accounts.get_lamports_le v.1
  have hbalance := b.getAccountOrDefault_lamports v.1
  obtain ⟨paid, hpaid, hpaid_eq⟩ := rentToBePaid_eq o (show v.2 + leftover < U64 by omega)
  rw [show v.2 + min leftover 1 = paid by omega]
  simp only [payRent, hpaid, ok_bind]
  by_cases hzero : 0 < paid
  · obtain ⟨b', hstore, hstored⟩ :=
      storeAccount_spec env.toStoreFeatures hb.opened hb.cache (b.keeps_add v.1 paid)
    have hsum := hstored.lamports
    rw [if_pos (.inr hzero), hbalance, addU64_ok o (by omega), ok_bind]
    refine ⟨_, bind_eq_ok.mpr ⟨b', hstore, rfl⟩, (hstored.keepsCache hb).counters _ _ _,
      hstored.capitalization, fun key => ?_, ?_⟩
    · rw [hstored.accounts, get_set]
      by_cases hkey : v.1 = key
      · simp [received, hkey]
      · simp [received, hkey, Ne.symm hkey]
    · simp only [credited_lamports, map_cons, sum_cons, map_nil, sum_nil] at hsum ⊢
      omega
  · rw [if_neg (by simp [hno, hzero])]
    obtain rfl : paid = 0 := by omega
    exact ⟨b, rfl, hb, rfl, by simp [received], rfl⟩

/-- The shares, with a lamport more for the first of them. -/
def withLeftover (leftover : Nat) (shares : List (Pubkey × Nat)) : List (Pubkey × Nat) :=
  (shares.take leftover).map (fun v => (v.1, v.2 + 1)) ++ shares.drop leftover

theorem withLeftover_cons (leftover : Nat) (v : Pubkey × Nat) (shares : List (Pubkey × Nat)) :
    withLeftover leftover (v :: shares) =
      (v.1, v.2 + min leftover 1) :: withLeftover (leftover - 1) shares := by
  cases leftover <;> simp [withLeftover]

theorem withLeftover_sum (leftover : Nat) (shares : List (Pubkey × Nat)) :
    ((withLeftover leftover shares).map Prod.snd).sum =
      (shares.map Prod.snd).sum + min leftover shares.length := by
  induction shares generalizing leftover with
  | nil => simp [withLeftover]
  | cons v shares ih =>
    simp only [withLeftover_cons, map_cons, sum_cons, ih, length_cons]
    omega

/-- Paying the shares: what is left over is one lamport less for each validator. -/
theorem payRent_fold (hno : env.noOverflowRentDistributionEnabled = true)
    {shares : List (Pubkey × Nat)} : ∀ (b : BankState) (leftover : Nat), KeepsCache o b b →
      b.accounts.lamports + (shares.map Prod.snd).sum + leftover < U64 →
      ∃ b', shares.foldlM (env.payRent o) (b, leftover) = .ok (b', leftover - shares.length) ∧
        Paid o b b' (withLeftover leftover shares) := by
  induction shares with
  | nil =>
    intro b leftover hb _
    exact ⟨b, rfl, hb, rfl, by simp [received, withLeftover], by simp [withLeftover]⟩
  | cons v shares ih =>
    intro b leftover hb hlt
    simp only [map_cons, sum_cons] at hlt
    obtain ⟨b₁, hrun, hpaid⟩ := env.payRent_spec o hno leftover v hb (by omega)
    have hsum : b₁.accounts.lamports = _ + (v.2 + min leftover 1) := hpaid.lamports
    obtain ⟨b₂, hruns, hpaid₂⟩ := ih b₁ (leftover - 1) hpaid.self (by omega)
    refine ⟨b₂, ?_, withLeftover_cons leftover v shares ▸ hpaid.cons hpaid₂⟩
    rw [foldlM_cons, hrun, length_cons, Nat.add_comm, ← Nat.sub_sub]
    exact hruns

/-- All stake of the vote accounts, read or not. -/
def totalStaked (votes : List (Pubkey × Nat × AccountData)) : Nat :=
  ((stakedVotes votes).map fun v => v.2.1).sum

/-- The validators can be paid all of the rent: their shares, and a lamport more each. -/
def Payable (votes : List (Pubkey × Nat × AccountData)) (rent : Nat) : Prop :=
  validatorStakes votes ≠ [] ∧
    rent ≤ ((validatorStakes votes).map fun v => v.2 * rent / totalStaked votes).sum
      + (validatorStakes votes).length

instance (votes : List (Pubkey × Nat × AccountData)) (rent : Nat) :
    Decidable (Payable votes rent) :=
  inferInstanceAs (Decidable (_ ∧ _))

theorem le_totalStaked (h : v ∈ validatorStakes votes) : v.2 ≤ totalStaked votes :=
  (le_sum_of_mem (mem_map_of_mem h)).trans (validatorStakes_sum_le votes)

theorem validatorStakes_pos (h : v ∈ validatorStakes votes) : v.2 ≠ 0 := by
  obtain ⟨vote, hvote, hsome⟩ := mem_filterMap.mp h
  obtain ⟨node, -, rfl⟩ := Option.map_eq_some_iff.mp hsome
  simpa using (mem_filter.mp hvote).2

theorem totalStaked_pos (hne : validatorStakes votes ≠ []) : 0 < totalStaked votes := by
  obtain ⟨v, hv⟩ := exists_mem_of_ne_nil _ hne
  have := le_totalStaked hv
  have := validatorStakes_pos hv
  omega

section

variable (votes rent)

theorem shares_sum_le :
    ((validatorStakes votes).map fun v => v.2 * rent / totalStaked votes).sum ≤ rent := by
  have hsum := sum_div_le ((validatorStakes votes).map Prod.snd) rent (totalStaked votes)
  rw [map_map] at hsum
  refine hsum.trans (Nat.div_le_of_le_mul ?_)
  exact Nat.mul_le_mul_right _ (validatorStakes_sum_le votes)

/-- The shares of the validators, the largest stakes first. -/
def sortedShares : List (Pubkey × Nat) :=
  ((validatorStakes votes).insertionSort stakeOrder).map (share rent (totalStaked votes))

theorem sortedShares_perm :
    (sortedShares rent votes).Perm ((validatorStakes votes).map (share rent (totalStaked votes))) :=
  (perm_insertionSort _ _).map _

-- Sorting changes neither the sum of the shares nor their number.
theorem sortedShares_sum :
    ((sortedShares rent votes).map Prod.snd).sum
      = ((validatorStakes votes).map fun v => v.2 * rent / totalStaked votes).sum := by
  rw [((sortedShares_perm rent votes).map _).sum_eq, map_map]
  rfl

theorem sortedShares_length :
    (sortedShares rent votes).length = (validatorStakes votes).length := by
  rw [(sortedShares_perm rent votes).length_eq, length_map]

/-- What the validators are paid. -/
def payments : List (Pubkey × Nat) :=
  withLeftover (rent - ((sortedShares rent votes).map Prod.snd).sum) (sortedShares rent votes)

end

theorem payments_sum (h : Payable votes rent) :
    ((payments rent votes).map Prod.snd).sum = rent := by
  have hle := shares_sum_le rent votes
  have hpayable := h.2
  rw [payments, withLeftover_sum, sortedShares_sum, sortedShares_length]
  omega

theorem sum_mul_le (xs : List Nat) (r : Nat) {t : Nat} (ht : 0 < t) :
    xs.sum * r ≤ ((xs.map fun s => s * r / t).sum + xs.length) * t := by
  induction xs with
  | nil => simp
  | cons x xs ih =>
    have hx := Nat.lt_div_mul_add (a := x * r) ht
    simp only [map_cons, sum_cons, length_cons, Nat.add_mul] at ih ⊢
    omega

/-- If all of the stake is read, one lamport more for each covers the rest of the division. -/
theorem payable_of_readable (hne : validatorStakes votes ≠ [])
    (hread : ∀ v ∈ stakedVotes votes, (nodePubkey v.2.2).isSome)
    (rent : Nat) : Payable votes rent := by
  have hstakes : (validatorStakes votes).map Prod.snd = (stakedVotes votes).map fun v => v.2.1 := by
    rw [validatorStakes, map_filterMap, ← filterMap_eq_map]
    refine filterMap_congr fun v hv => ?_
    obtain ⟨node, hnode⟩ := Option.isSome_iff_exists.mp (hread v hv)
    simp [hnode]
  have hpos := totalStaked_pos hne
  have hsum := sum_mul_le ((validatorStakes votes).map Prod.snd) rent hpos
  rw [map_map, length_map, hstakes, Nat.mul_comm] at hsum
  exact ⟨hne, Nat.le_of_mul_le_mul_right hsum hpos⟩

/-- The order of the vote accounts does not matter. -/
theorem distributeRentToValidators_perm {votes' : List (Pubkey × Nat × AccountData)}
    (h : votes'.Perm votes) (b : BankState) (rent : Nat) :
    env.distributeRentToValidators o b votes' rent =
      env.distributeRentToValidators o b votes rent := by
  have hstaked : (stakedVotes votes').Perm (stakedVotes votes) := h.filter _
  have hstakes : (validatorStakes votes').Perm (validatorStakes votes) := hstaked.filterMap _
  have hsorted : (validatorStakes votes').insertionSort stakeOrder
      = (validatorStakes votes).insertionSort stakeOrder :=
    Perm.eq_of_pairwise' (pairwise_insertionSort _ _) (pairwise_insertionSort _ _)
      ((perm_insertionSort _ _).trans (hstakes.trans (perm_insertionSort _ _).symm))
  have hnil : validatorStakes votes' = [] ↔ validatorStakes votes = [] := by
    rw [← length_eq_zero_iff, hstakes.length_eq, length_eq_zero_iff]
  simp only [distributeRentToValidators, (hstaked.map _).sum_eq, hsorted, ne_eq, hnil]

section

variable (hno : env.noOverflowRentDistributionEnabled = true) (htotal : totalStaked votes < U64)
  (hb : KeepsCache o b b) (hlt : b.accounts.lamports + rent < U64)
include hno htotal hb hlt

/-- With validators, all of the rent is paid but what is left over after one more lamport for
each. -/
theorem distributeRentToValidators_eq (hne : validatorStakes votes ≠ []) :
    ∃ b' unpaid,
      unpaid = rent - ((validatorStakes votes).map fun v => v.2 * rent / totalStaked votes).sum
          - (validatorStakes votes).length ∧
      env.distributeRentToValidators o b votes rent = (assert (unpaid = 0) >>= fun _ => .ok b') ∧
      Paid o b b' (payments rent votes) := by
  have hperm := perm_insertionSort stakeOrder (validatorStakes votes)
  have hle := shares_sum_le rent votes
  have hpos := totalStaked_pos hne
  have hshares : env.rentShares o rent (totalStaked votes) _ = .ok (sortedShares rent votes) :=
    env.rentShares_eq o hno (show rent < U64 by omega) hpos.ne' fun v hv =>
      le_totalStaked (hperm.mem_iff.mp hv)
  have hsum := sortedShares_sum rent votes
  obtain ⟨b', hpay, hpaid⟩ := env.payRent_fold o hno b
    (rent - ((sortedShares rent votes).map Prod.snd).sum) hb
    (show b.accounts.lamports + ((sortedShares rent votes).map Prod.snd).sum + _ <
      U64 by rw [hsum]; omega)
  rw [sortedShares_length, hsum] at hpay
  refine ⟨b', _, rfl, ?_, hpaid⟩
  unfold distributeRentToValidators
  rw [show ((stakedVotes votes).map fun v => v.2.1).sum = totalStaked votes from rfl,
    sumU64_ok o htotal,
    ok_bind, assert_pos hne, ok_bind, hshares, ok_bind, hsum, sumU64_ok o (by omega), ok_bind,
    subU64_ok o hle, ok_bind, hpay, hno]
  rfl

theorem distributeRentToValidators_spec (hpayable : Payable votes rent) :
    ∃ b', env.distributeRentToValidators o b votes rent = .ok b' ∧
      Paid o b b' (payments rent votes) := by
  obtain ⟨b', unpaid, hunpaid, heq, hpaid⟩ :=
    env.distributeRentToValidators_eq o hno htotal hb hlt hpayable.1
  have := hpayable.2
  exact ⟨b', by rw [heq, assert_pos (by omega), ok_bind], hpaid⟩

theorem distributeRentToValidators_returns_iff :
    (∃ b', env.distributeRentToValidators o b votes rent = .ok b') ↔ Payable votes rent := by
  constructor
  · rintro ⟨b', h⟩
    have hne : validatorStakes votes ≠ [] := by
      obtain ⟨_, _, h⟩ := bind_eq_ok.mp h
      obtain ⟨⟨⟩, hassert, _⟩ := bind_eq_ok.mp h
      exact of_assert hassert
    obtain ⟨b'', unpaid, hunpaid, heq, -⟩ :=
      env.distributeRentToValidators_eq o hno htotal hb hlt hne
    rw [heq] at h
    obtain ⟨⟨⟩, hassert, -⟩ := bind_eq_ok.mp h
    have := of_assert hassert
    exact ⟨hne, by omega⟩
  · intro hpayable
    obtain ⟨b', heq, -⟩ := env.distributeRentToValidators_spec o hno htotal hb hlt hpayable
    exact ⟨b', heq⟩

end

/-- **The rent is paid out exactly once**, each node its shares, the largest stakes a lamport more,
in any order of the vote accounts, if and only if the shares of the accounts that are read and a
lamport more for each cover it. They do if all of them are read. -/
theorem distributeRentToValidators_pays_out_iff (hno : env.noOverflowRentDistributionEnabled = true)
    (htotal : totalStaked votes < U64) (hopen : b.freezeStarted = false)
    (hcache : o = .wrapping ∨ b.Coherent) (hlt : b.accounts.lamports + rent < U64) :
    ((∃ b', env.distributeRentToValidators o b votes rent = .ok b' ∧
      Paid o b b' (payments rent votes) ∧ ((payments rent votes).map Prod.snd).sum = rent ∧
      ∀ votes' : List (Pubkey × Nat × AccountData), votes'.Perm votes →
        env.distributeRentToValidators o b votes' rent = .ok b') ↔ Payable votes rent) ∧
    (validatorStakes votes ≠ [] → (∀ v ∈ stakedVotes votes, (nodePubkey v.2.2).isSome) →
      Payable votes rent) := by
  have hb : KeepsCache o b b := .refl hcache hopen
  refine ⟨⟨?_, fun hpayable => ?_⟩, fun hne hread => payable_of_readable hne hread rent⟩
  · rintro ⟨b', heq, -⟩
    exact (env.distributeRentToValidators_returns_iff o hno htotal hb hlt).mp ⟨b', heq⟩
  obtain ⟨b', heq, hpaid⟩ := env.distributeRentToValidators_spec o hno htotal hb hlt hpayable
  refine ⟨b', heq, hpaid, payments_sum hpayable, fun votes' hperm => ?_⟩
  rw [env.distributeRentToValidators_perm o hperm, heq]

/-- The part of the rent that is not burned. -/
def rentToDistribute (env : FreezeEnv) (collectedRent : Nat) : Nat :=
  collectedRent - collectedRent * env.rentCollector.rent.burnPercent / 100

/-- What `distribute_rent` needs: nothing to distribute, or validators to pay. -/
def Distributes (env : FreezeEnv) (votes : List (Pubkey × Nat × AccountData))
    (collectedRent : Nat) : Prop :=
  env.rentToDistribute collectedRent = 0 ∨ Payable votes (env.rentToDistribute collectedRent)

instance (env : FreezeEnv) (votes : List (Pubkey × Nat × AccountData)) (collectedRent : Nat) :
    Decidable (env.Distributes votes collectedRent) :=
  inferInstanceAs (Decidable (_ ∨ _))

/-- **The rent is distributed exactly if it can be paid**, and settles its counter. -/
theorem distributeRent_spec (hno : env.noOverflowRentDistributionEnabled = true)
    (hb : KeepsCache o b b)
    (hcap : b.capitalization = b.accounts.lamports + b.collectedRent) (hlt : b.capitalization < U64)
    (hpercent : env.rentCollector.rent.burnPercent ≤ 100)
    (hproduct : b.collectedRent * env.rentCollector.rent.burnPercent < U64)
    (htotal : totalStaked b.stakes.votesView.toList < U64) :
    ((∃ b', env.distributeRent o b = .ok b') ↔
      env.Distributes b.stakes.votesView.toList b.collectedRent) ∧
      ∀ b', env.distributeRent o b = .ok b' → KeepsCache o b b' ∧
        b'.capitalization = b'.accounts.lamports ∧ b'.capitalization ≤ b.capitalization := by
  obtain ⟨hburn, hle⟩ := burnPortion_eq o hpercent hproduct
  have hrent : env.rentToDistribute b.collectedRent
      = b.collectedRent - b.collectedRent * env.rentCollector.rent.burnPercent / 100 := rfl
  -- The bank after the burned portion left the capitalization.
  obtain ⟨b₁, hb₁⟩ : ∃ b₁ : BankState, b₁ = { b with
      capitalization := wrapSub b.capitalization
        (b.collectedRent * env.rentCollector.rent.burnPercent / 100) } := ⟨_, rfl⟩
  have hcap₁ : b₁.capitalization = b.accounts.lamports + env.rentToDistribute b.collectedRent := by
    rw [hb₁]
    dsimp only
    rw [wrapSub_eq (by omega) hlt]
    omega
  have hsame : KeepsCache o b b₁ := by
    rw [hb₁]
    exact hb.counters _ _ _
  have haccounts : b₁.accounts = b.accounts := by rw [hb₁]
  have hdef : env.distributeRent o b = if env.rentToDistribute b.collectedRent = 0 then .ok b₁
      else env.distributeRentToValidators o b₁ b.stakes.votesView.toList
        (env.rentToDistribute b.collectedRent) := by
    rw [distributeRent, Rent.calculateBurn, hburn, hb₁]
    rfl
  rw [hdef]
  by_cases hzero : env.rentToDistribute b.collectedRent = 0
  · rw [if_pos hzero]
    refine ⟨⟨fun _ => .inl hzero, fun _ => ⟨b₁, rfl⟩⟩, fun b' h => ?_⟩
    cases h
    exact ⟨hsame, by rw [haccounts]; omega, by omega⟩
  · rw [if_neg hzero]
    have hlt₁ : b₁.accounts.lamports + env.rentToDistribute b.collectedRent < U64 := by
      rw [haccounts]
      omega
    have hiff := env.distributeRentToValidators_returns_iff o hno htotal hsame.self hlt₁
    refine ⟨hiff.trans ⟨.inr, fun h => h.resolve_left hzero⟩, fun b' h => ?_⟩
    have hpayable := hiff.mp ⟨b', h⟩
    obtain ⟨b'', heq, hpaid⟩ :=
      env.distributeRentToValidators_spec o hno htotal hsame.self hlt₁ hpayable
    rw [heq] at h
    cases h
    have hcap' := hpaid.capitalization
    refine ⟨hsame.trans hpaid.toKeepsCache, ?_, by omega⟩
    rw [hcap', hcap₁, hpaid.lamports, payments_sum hpayable, haccounts]

/-! ## Sysvar and incinerator -/

theorem storeAccountAndUpdateCapitalization_spec (f : StoreFeatures) (hb : KeepsCache o b b)
    (howner : account.owner = SYSVAR_ID) (hcap : b.capitalization = b.accounts.lamports)
    (hlt : b.capitalization + account.lamports < U64) :
    ∃ b', b.storeAccountAndUpdateCapitalization o f pubkey account = .ok b' ∧ KeepsCache o b b' ∧
      b'.capitalization = b'.accounts.lamports ∧ b'.capitalization < U64 := by
  have hle := b.accounts.get_lamports_le pubkey
  have hkeeps : ∀ capitalization, BankState.Keeps { b with capitalization } pubkey account := by
    intro _ hstake
    rw [isStake_of_owner (by rw [howner]; decide) (by rw [howner]; decide)] at hstake
    cases hstake
  -- The capitalization follows the balance of the account.
  obtain ⟨capitalization, hnew, hcap'⟩ : ∃ capitalization,
      b.storeAccountAndUpdateCapitalization o f pubkey account
        = storeAccount o f { b with capitalization } pubkey account ∧
      capitalization + (b.accounts.get pubkey).lamports = b.capitalization + account.lamports := by
    refine ⟨_, rfl, ?_⟩
    unfold getAccount
    by_cases h0 : (b.accounts.get pubkey).lamports = 0
    · simp only [if_pos h0]
      rw [wrapAdd_eq hlt]
      omega
    · simp only [if_neg h0]
      split
      · rw [wrapAdd_eq (by omega)]
        omega
      · rw [wrapSub_eq (by omega) (by omega)]
        omega
  obtain ⟨b', hstore, hstored⟩ := storeAccount_spec (b := { b with capitalization }) f hb.opened
    (hb.counters capitalization b.collectedRent b.rewards).cache (hkeeps capitalization)
  have hlamports := hstored.lamports
  have hc := hstored.capitalization
  have hkeep := hstored.keepsCache (hb.counters ..).self
  dsimp only at hlamports hc
  exact ⟨b', hnew.trans hstore,
    { hkeep with votes := fun h => hkeep.votes ⟨h.votes, h.delegations⟩ }, by omega, by omega⟩

/-- The balance that the slot history inherits. -/
def slotHistoryLamports (env : FreezeEnv) : Nat :=
  (env.parentSlotHistory.map Account.lamports).getD 1

theorem updateSlotHistory_spec (hsimple : env.simpleCapitalizationEnabled = true)
    (hdecodes : (env.addSlot (env.parentSlotHistory.map Account.data)).isSome)
    (hb : KeepsCache o b b) (hcap : b.capitalization = b.accounts.lamports)
    (hlt : b.capitalization + env.slotHistoryLamports < U64) :
    ∃ b', env.updateSlotHistory o b = .ok b' ∧ KeepsCache o b b' ∧
      b'.capitalization = b'.accounts.lamports ∧ b'.capitalization < U64 := by
  obtain ⟨data, hdata⟩ := Option.isSome_iff_exists.mp hdecodes
  simp only [updateSlotHistory, hdata, updateSysvarAccount, hsimple]
  exact storeAccountAndUpdateCapitalization_spec o env.toStoreFeatures hb rfl hcap hlt

theorem runIncinerator_spec (hb : KeepsCache o b b)
    (hcap : b.capitalization = b.accounts.lamports) (hlt : b.capitalization < U64) :
    ∃ b', env.runIncinerator o b = .ok b' ∧ b'.capitalization = b'.accounts.lamports := by
  unfold runIncinerator getAccountModifiedSinceParent getAccount
  have hle := b.accounts.get_lamports_le INCINERATOR_ID
  by_cases hmodified : INCINERATOR_ID ∈ b.modified
  · rw [if_pos hmodified]
    by_cases h0 : (b.accounts.get INCINERATOR_ID).lamports = 0
    · rw [if_pos h0]
      exact ⟨b, rfl, hcap⟩
    · rw [if_neg h0]
      have hkeeps : ∀ capitalization,
          BankState.Keeps { b with capitalization } INCINERATOR_ID default := by
        intro _ hstake
        cases hstake
      obtain ⟨b', hstore, hstored⟩ := storeAccount_spec
        (b :=
          { b with
            capitalization := wrapSub b.capitalization (b.accounts.get INCINERATOR_ID).lamports })
        env.toStoreFeatures hb.opened (hb.counters _ b.collectedRent b.rewards).cache (hkeeps _)
      have hlamports := hstored.lamports
      have hc := hstored.capitalization
      dsimp only at hlamports hc
      rw [wrapSub_eq (by omega) hlt] at hc
      rw [Account.default_lamports] at hlamports
      exact ⟨b', hstore, by omega⟩
  · rw [if_neg hmodified]
    exact ⟨b, rfl, hcap⟩

/-! ## All steps -/

/-- The vote accounts of the cache once the accounts that pay rent and that of the collector are
stored.  In a coherent cache they are what they were. -/
def paidVotes (o : Overflow) (env : FreezeEnv) (b : BankState) :
    List (Pubkey × Nat × AccountData) :=
  let rents := env.collectedEntries o b.accounts
  let fees := env.feeEntries { b with accounts := b.accounts.setAll rents }
  match (rents ++ fees).foldlM (Stakes.stored o env.toStoreFeatures) b.stakes with
  | .ok s => s.votesView.toList
  | .error _ => []

/-- A bank before it is frozen, with all fixes. -/
structure Freezable (o : Overflow) (env : FreezeEnv) (b : BankState) : Prop where
  simpleCapitalization : env.simpleCapitalizationEnabled = true
  fixes : env.rentCycle.cumulativeRentRelatedFixesEnabled = true
  noOverflow : env.noOverflowRentDistributionEnabled = true
  opened : b.freezeStarted = false
  notFrozen : b.frozen = false
  capitalization : b.capitalization = b.accounts.lamports + b.collectedRent + b.collectorFees
  -- The slot history is written with the balance that the parent's has.
  fits : b.capitalization + env.slotHistoryLamports < U64
  feePercent : env.feeBurnPercent ≤ 100
  rentPercent : env.rentCollector.rent.burnPercent ≤ 100
  feeProduct : b.collectorFees * env.feeBurnPercent < U64
  rentProduct : (b.collectedRent + env.rentDue o b.accounts) * env.rentCollector.rent.burnPercent <
    U64
  schedule : env.rentCycle.epochSchedule.WellFormed
  slots : env.rentCycle.parentSlot ≤ env.rentCycle.slot
  -- With overflow checks, a cache that does not have what the bank has can abort.
  cache : o = .wrapping ∨ b.Coherent
  staked : totalStaked (env.paidVotes o b) < U64
  slotHistory : (env.addSlot (env.parentSlotHistory.map Account.data)).isSome

/-- The rent that is collected can be paid to the validators. -/
def CanPay (o : Overflow) (env : FreezeEnv) (b : BankState) : Prop :=
  env.Distributes (env.paidVotes o b) (b.collectedRent + env.rentDue o b.accounts)

instance (o : Overflow) (env : FreezeEnv) (b : BankState) : Decidable (env.CanPay o b) :=
    inferInstanceAs (Decidable (_ ∨ _))

/-- The bank once rent and fees are collected. -/
structure Collected (o : Overflow) (env : FreezeEnv) (b b₂ : BankState) : Prop where
  keeps : KeepsCache o b b₂
  rent : b₂.collectedRent = b.collectedRent + env.rentDue o b.accounts
  capitalization : b₂.capitalization = b₂.accounts.lamports + b₂.collectedRent
  le : b₂.capitalization ≤ b.capitalization
  votes : env.paidVotes o b = b₂.stakes.votesView.toList

section Settles

variable {o env} (h : env.Freezable o b)
include h

/-- Once the partitions pass, rent and fees are collected. -/
theorem Freezable.collects (hpartitions : env.Partitions) : ∃ b₁ b₂,
    env.collectRentEagerly o b = .ok b₁ ∧ env.collectFees o b₁ = .ok b₂ ∧
      env.Collected o b b₂ := by
  have hfits := h.fits
  have hcap := h.capitalization
  obtain ⟨b₁, hrent, hkeep₁, hcap₁, hrent₁, hsum₁, hset₁, hcache₁⟩ :=
    env.collectRentEagerly_spec o h.schedule h.slots h.fixes hpartitions
      (.refl h.cache h.opened) (by omega)
  have hfees₁ := hkeep₁.collectorFees
  obtain ⟨b₂, hfees, hkeep₂, hrent₂, hcap₂, hle₂, hcache₂⟩ :=
    env.collectFees_spec o h.fixes hkeep₁.self (by omega) (by omega) h.feePercent
      (by rw [hfees₁]; exact h.feeProduct)
  refine ⟨b₁, b₂, hrent, hfees, hkeep₁.trans hkeep₂, hrent₂.trans hrent₁, hcap₂, by omega, ?_⟩
  -- The fees go to the account as it is after the rent.
  have hentries : env.feeEntries b₁ = env.feeEntries
      { b with accounts := b.accounts.setAll (env.collectedEntries o b.accounts) } := by
    simp only [feeEntries, credited, getAccountOrDefault, getAccount, hset₁, hfees₁]
  rw [hentries] at hcache₂
  have hrun := hcache₁.append hcache₂
  unfold Caches at hrun
  simp only [paidVotes, hrun]

theorem Freezable.distributes {b₂ : BankState} (hb₂ : env.Collected o b b₂) :
    ((∃ b', env.distributeRent o b₂ = .ok b') ↔ env.CanPay o b) ∧
      ∀ b', env.distributeRent o b₂ = .ok b' → KeepsCache o b₂ b' ∧
        b'.capitalization = b'.accounts.lamports ∧ b'.capitalization ≤ b₂.capitalization := by
  have hfits := h.fits
  have hle := hb₂.le
  have hspec := env.distributeRent_spec o h.noOverflow hb₂.keeps.self hb₂.capitalization
    (by omega) h.rentPercent (by rw [hb₂.rent]; exact h.rentProduct) (hb₂.votes ▸ h.staked)
  rwa [← hb₂.votes, hb₂.rent] at hspec

end Settles

def votersSchedule : EpochSchedule := .withoutWarmup 432000 (by decide)

def votersEnv : FreezeEnv where
  stakeProgramV2Enabled := true
  simpleCapitalizationEnabled := true
  rentCycle := ⟨1, 0, votersSchedule, 64, .development, true, by decide⟩
  rentCollector := ⟨0, votersSchedule, .finite 78892314, { Rent.default with burnPercent := 50 }⟩
  feeBurnPercent := 50
  collectorId := 9
  lazyRentCollection := false
  noOverflowRentDistributionEnabled := true
  parentSlotHistory := none
  addSlot := fun _ => some ⟨131097, .other⟩

def voterData (node : Pubkey) : AccountData :=
  ⟨3731, .vote (.v0235
    { nodePubkey := node, authorizedVoter := 1, authorizedVoterEpoch := 0,
      authorizedWithdrawer := 1,
      commission := 0, votes := [], rootSlot := none, epochCredits := [],
        lastTimestamp := ⟨0, 0⟩ })⟩

def voterAccount (data : AccountData) : BankAccount := ⟨5, data, VOTE_PROGRAM_ID, false, 0⟩

/-- A bank with 200 lamports of rent and two vote accounts, with stakes of 10 and 90. -/
def votersBank (data : AccountData) : BankState where
  accounts := (set (set ∅ (pubkeyOf (2 ^ 63) 0) (voterAccount (voterData 7)))
    (pubkeyOf (2 ^ 63) 1) (voterAccount data))
  modified := []
  stakes := ⟨((∅ : Std.ExtTreeMap Pubkey (Nat × BankAccount)).insert (pubkeyOf (2 ^ 63) 0)
    (10, voterAccount (voterData 7))).insert (pubkeyOf (2 ^ 63) 1) (90, voterAccount data), ∅, 0, ∅⟩
  capitalization := 210
  collectedRent := 200
  collectorFees := 0
  rewards := []
  freezeStarted := false
  frozen := false

theorem votersBank_coherent (data : AccountData) : (votersBank data).Coherent := by
  have hget : ∀ key : Pubkey, get (votersBank data).accounts key
      = if key = pubkeyOf (2 ^ 63) 1 then voterAccount data
        else if key = pubkeyOf (2 ^ 63) 0 then voterAccount (voterData 7) else default := by
    intro key
    simp only [votersBank, get_set]
    rfl
  have hvotes : ∀ key : Pubkey, (votersBank data).stakes.voteAccounts[key]?
      = if key = pubkeyOf (2 ^ 63) 1 then some (90, voterAccount data)
        else if key = pubkeyOf (2 ^ 63) 0 then some (10, voterAccount (voterData 7)) else none := by
    intro key
    simp only [votersBank, getElem?_insert_ite]
    rfl
  constructor
  · intro key hne _
    rw [hget] at hne ⊢
    rw [hvotes]
    split_ifs at hne ⊢
    · exact ⟨_, rfl, rfl⟩
    · exact ⟨_, rfl, rfl⟩
    · exact absurd Account.default_lamports hne
  · intro key hne howner
    rw [hget] at hne howner
    split_ifs at hne howner
    · exact absurd howner (by simp only [voterAccount]; decide)
    · exact absurd howner (by simp only [voterAccount]; decide)
    · exact absurd Account.default_lamports hne

theorem votersBank_freezable {data : AccountData}
    (hlamports : (votersBank data).accounts.lamports = 10)
    (hstaked : totalStaked (votersEnv.paidVotes o (votersBank data)) = 100) :
    votersEnv.Freezable o (votersBank data) where
  simpleCapitalization := rfl
  fixes := rfl
  noOverflow := rfl
  opened := rfl
  notFrozen := rfl
  capitalization := by rw [hlamports]; rfl
  fits := show 210 + 1 < U64 by decide
  feePercent := by decide
  rentPercent := by decide
  feeProduct := show 0 * 50 < U64 by decide
  rentProduct := by
    exact show (200 + 0) * 50 < U64 by decide
  schedule := ⟨rfl, by decide⟩
  slots := by decide
  cache := .inr (votersBank_coherent data)
  staked := by rw [hstaked]; decide
  slotHistory := rfl

/-- Vote accounts with a small stake that cannot be read. -/
def smallUnread : List (Pubkey × Nat × AccountData) :=
  [(0, 10, voterData 7), (1, 1, ⟨3731, .other⟩), (2, 90, voterData 8)]

theorem distributeRentToValidators_pays_out_voters :
    ∃ b', votersEnv.distributeRentToValidators .checked (votersBank (voterData 8)) smallUnread 100 =
      .ok b' ∧ (get b'.accounts 7).lamports = 10 ∧ (get b'.accounts 8).lamports = 90 := by
  have hpayable : Payable smallUnread 100 := by decide
  obtain ⟨b', h, hpaid, -⟩ :=
    (votersEnv.distributeRentToValidators_pays_out_iff .checked rfl (by decide) rfl
    (.inr (votersBank_coherent (voterData 8))) (by decide +kernel)).1.mpr hpayable
  exact ⟨b', h, (hpaid.balance 7).trans (by decide +kernel),
    (hpaid.balance 8).trans (by decide +kernel)⟩

theorem distributeRentToValidators_fails_unread :
    validatorStakes [(0, 10, voterData 7), (1, 90, ⟨3731, .other⟩)] ≠ [] ∧
      totalStaked [(0, 10, voterData 7), (1, 90, ⟨3731, .other⟩)] < U64 ∧
      votersEnv.distributeRentToValidators .wrapping (votersBank (voterData 8))
        [(0, 10, voterData 7), (1, 90, ⟨3731, .other⟩)] 100 = .error .assertion :=
  ⟨by decide, by decide, eq_error_of_panicOf (by decide +kernel)⟩

end FreezeEnv

end Panoptes.Runtime
